import Mathlib.Algebra.BigOperators.Group.Multiset.Basic
import Scap.Walk.Flag
import Scap.Walk.Rules

/-!
# What a walk comes upon

What the walker does in any tree, whatever the process may read and search.  A `Finding` is a thing
the walk comes upon, and an output reports a multiset of findings (`Out.Reports`).  For a tree,
`ownFound` says what reading one directory comes upon and `entered` which directories are read next;
neither mentions jobs, descriptors or the detection strategy.  `found` adds up what is come upon
from some directories on, and `WalkRootCapped.reports` says that a walk reports just that, whatever
the schedule.

The strategy and the descriptor budget come in at one place only, a directory that cannot be opened
and whose `.git` stats: the predicate `spared` says whether the walk takes it for a repository or
drops it.
-/

namespace Scap

/-! ## Findings -/

/-- A thing the walk comes upon. -/
inductive Finding where
  /-- A repository. -/
  | repo (rel : Bytes)
  /-- A directory that was read, with its mtime. -/
  | dir (rel : Bytes) (mtimeNs : Int64)
  /-- A directory or link that is excluded. -/
  | pruned (rel : Bytes)
  /-- A directory that could not be read. -/
  | dropped (rel : Bytes)
deriving Repr, DecidableEq

namespace Finding

/-- The path of the thing. -/
def rel : Finding → Bytes
  | repo rel | dir rel _ | pruned rel | dropped rel => rel

/-- What is printed for it. -/
def arena? : Finding → Option Bytes
  | repo rel => some (Tree.printed rel)
  | _ => none

/-- What the index remembers of it. -/
def record? : Finding → Option Record
  | repo rel => some (.repo rel)
  | dir rel mtimeNs => some (.dir rel mtimeNs)
  | _ => none

/-- Whether an exclusion pruned it. -/
def isPruned : Finding → Bool
  | pruned _ => true
  | _ => false

end Finding

/-- The output reports these findings, in any order. -/
structure Out.Reports (out : Out) (recorded : Bool) (found : Multiset Finding) : Prop where
  arena : (out.arena : Multiset Bytes) = found.filterMap Finding.arena?
  records : (out.records : Multiset Record) =
    if recorded then found.filterMap Finding.record? else 0
  excluded : out.excluded = found.countP (·.isPruned = true)
  incomplete : out.incomplete = true ↔ ∃ rel, Finding.dropped rel ∈ found

namespace Out.Reports

variable {recorded : Bool} {found found' : Multiset Finding} {out out' : Out}

/-- An empty output reports nothing. -/
lemma new : Out.new.Reports recorded 0 := by
  constructor <;> simp [Out.new]

/-- Two outputs merged report what both do. -/
lemma merge (h : out.Reports recorded found) (h' : out'.Reports recorded found') :
    (out.merge out').Reports recorded (found + found') where
  arena := by
    rw [Multiset.filterMap_add, ← h.arena, ← h'.arena, Multiset.coe_add]
    rfl
  records := by
    rw [Multiset.filterMap_add]
    have := congrArg₂ (· + ·) h.records h'.records
    cases recorded <;> simpa [Out.merge] using this
  excluded := by
    rw [Multiset.countP_add, ← h.excluded, ← h'.excluded]
    rfl
  incomplete := by
    simp only [Out.merge, Bool.or_eq_true, h.incomplete, h'.incomplete, Multiset.mem_add, exists_or]

/-- What an output reports does not depend on the order of its records. -/
lemma of_equiv (hequiv : out.Equiv out') (h : out'.Reports recorded found) :
    out.Reports recorded found where
  arena := (Multiset.coe_eq_coe.mpr hequiv.arena).trans h.arena
  records := (Multiset.coe_eq_coe.mpr hequiv.records).trans h.records
  excluded := hequiv.excluded.trans h.excluded
  incomplete := by rw [hequiv.incomplete, h.incomplete]

/-- A directory read reports nothing by itself. -/
lemma noteRead : Out.noteRead.Reports recorded 0 := by
  constructor <;> simp [Out.noteRead]

/-- A repository listed is reported. -/
lemma emit (rel : Bytes) : (Out.emit recorded rel).Reports recorded {.repo rel} where
  arena := rfl
  records := by cases recorded <;> rfl
  excluded := rfl
  incomplete := by simp [Out.emit]

/-- A directory recorded is reported. -/
lemma noteDir (rel : Bytes) (mtimeNs : Int64) :
    (Out.noteDir recorded rel mtimeNs).Reports recorded {.dir rel mtimeNs} where
  arena := rfl
  records := by cases recorded <;> rfl
  excluded := rfl
  incomplete := by simp [Out.noteDir]

/-- An entry excluded is reported. -/
lemma noteExcluded (rel : Bytes) : Out.noteExcluded.Reports recorded {.pruned rel} where
  arena := rfl
  records := by cases recorded <;> rfl
  excluded := rfl
  incomplete := by simp [Out.noteExcluded]

/-- An entry dropped is reported. -/
lemma noteIncomplete (rel : Bytes) : Out.noteIncomplete.Reports recorded {.dropped rel} where
  arena := rfl
  records := by cases recorded <;> rfl
  excluded := rfl
  incomplete := by simp [Out.noteIncomplete]

end Out.Reports

/-! ## One directory of a tree -/

namespace Tree

variable (wildmatch : Bytes → Bytes → Bool) (exclude : List Bytes) (t : Tree)
    (spared : Bytes → Bool)

/-- Whether a directory can be opened. -/
def opens (rel : Bytes) : Bool := succeeds (t.root.openDir (components rel))

/-- Whether a directory's own entries make it a repository. -/
def inside (rel : Bytes) : Bool :=
  match t.root.at? (components rel) with
  | some n => isRepoDir t.sys (entryBuf n.stream) rel
  | none => false

/-- What becomes of an entry. -/
inductive Verdict where
  /-- It is not a candidate, or its type could not be found out. -/
  | ignored
  /-- It is excluded. -/
  | pruned
  /-- Its name, or what the link leads to, makes it a repository. -/
  | emitted
  /-- It is a directory that can be read. -/
  | entered
  /-- It is a directory that cannot be opened. -/
  | barred
deriving Repr, DecidableEq

/-- What becomes of an entry of the directory `rel`, which may be searched or not. -/
def verdict (rel : Bytes) (searchable : Bool) (e : Bytes × Bool × Node) : Verdict :=
  if !e.2.1 && !searchable then .ignored
  else
    match e.2.2 with
    | .file _ _ _ => .ignored
    | .link _ _ =>
      if isExcluded wildmatch exclude (joinRel rel e.1) then .pruned
      else if t.leadsToDir (joinRel rel e.1) ∧ (dotGit <:+ e.1 ∨ t.hasGit (joinRel rel e.1)) then
        .emitted
      else .ignored
    | .dir _ _ _ _ =>
      if isExcluded wildmatch exclude (joinRel rel e.1) then .pruned
      else if dotGit <:+ e.1 then .emitted
      else if t.opens (joinRel rel e.1) then .entered
      else .barred

/-- What an entry amounts to, unless it is read.  A directory that cannot be opened but whose `.git`
stats is a repository if it is spared. -/
def entFound (rel : Bytes) (searchable : Bool) (e : Bytes × Bool × Node) : List Finding :=
  match t.verdict wildmatch exclude rel searchable e with
  | .pruned => [.pruned (joinRel rel e.1)]
  | .emitted => [.repo (joinRel rel e.1)]
  | .barred =>
    if t.hasGit (joinRel rel e.1) && spared (joinRel rel e.1) then [.repo (joinRel rel e.1)]
    else [.dropped (joinRel rel e.1)]
  | _ => []

/-- What reading the directory `rel` comes upon. -/
def ownFound (rel : Bytes) : List Finding :=
  match t.root.at? (components rel) with
  | some (.dir attr _ x entries) =>
    if t.inside rel then [.repo rel]
    else .dir rel (mtimeNs ⟨attr, .directory⟩) ::
      entries.flatMap (t.entFound wildmatch exclude spared rel x)
  | _ => []

/-- The directories that are read after the directory `rel`. -/
def entered (rel : Bytes) : List Bytes :=
  match t.root.at? (components rel) with
  | some (.dir _ _ x entries) =>
    if t.inside rel then []
    else (entries.filter fun e => t.verdict wildmatch exclude rel x e = .entered).map fun e =>
      joinRel rel e.1
  | _ => []

variable {wildmatch exclude t spared}

section Directory

variable {rel : Bytes} {attr : Attr} {r x : Bool} {entries : List (Bytes × Bool × Node)}
  {e : Bytes × Bool × Node}

/-- A directory can be opened if the way to it can be searched and it can be read. -/
lemma opens_eq (hat : t.root.at? (components rel) = some (.dir attr r x entries)) :
    t.opens rel = (t.root.passable (components rel) && r) := by
  have hopen := Node.openDir_append hat []
  rw [List.append_nil] at hopen
  rw [opens, hopen]
  cases t.root.passable (components rel) <;> cases r <;> rfl

/-- A directory is opened, or the open is refused. -/
lemma openDir_eq (hat : t.root.at? (components rel) = some (.dir attr r x entries)) :
    t.root.openDir (components rel) = if t.opens rel then .ok () else .error .ACCESS := by
  have hopen := Node.openDir_append hat []
  rw [List.append_nil] at hopen
  rw [opens_eq hat, hopen]
  cases t.root.passable (components rel) <;> cases r <;> rfl

/-- One gets to a directory that can be opened. -/
lemma passable_of_opens (hat : t.root.at? (components rel) = some (.dir attr r x entries))
    (hopens : t.opens rel = true) : t.root.passable (components rel) = true := by
  rw [opens_eq hat, Bool.and_eq_true] at hopens
  exact hopens.1

/-- What is found below an entry, from a directory one gets to. -/
lemma find_entry (follow : Bool)
    (hat : t.root.at? (components rel) = some (.dir attr r x entries))
    (hpass : t.root.passable (components rel) = true) (he : e ∈ entries) (q : List Bytes) :
    t.root.find follow (components (joinRel rel e.1) ++ q) =
      if x then e.2.2.find follow q else .error .ACCESS := by
  have hname := t.valid _ attr r x entries hat e he
  have hlookup := Node.lookup_eq_some_of_mem (t.distinct _ attr r x entries hat) he
  rw [components_joinRel hname, List.append_assoc,
    Node.find_append follow (Tree.validPath hat) hat, if_pos hpass]
  cases x <;> simp [Node.find, hname.ne_dot, hlookup]

/-- Without the search bit nothing is found below a directory. -/
lemma hasGit_eq (hat : t.root.at? (components rel) = some (.dir attr r x entries)) :
    t.hasGit rel = (t.root.passable (components rel) && x &&
      succeeds (((Node.lookup entries dotGit).map (Node.find true [])).getD (.error .NOENT))) := by
  have hdotGit : dotGit ≠ dot := by decide
  rw [hasGit, components_joinRel validName_dotGit,
    Node.find_append true (Tree.validPath hat) hat]
  cases t.root.passable (components rel) <;> cases x <;> simp [Node.find, hdotGit, succeeds,
    Except.toBool]
  cases Node.lookup entries dotGit <;> rfl

/-- The entry `.git` decides: a typed one by being there, unless it is a symlink, and any other by
whether it stats. -/
lemma inside_eq (hat : t.root.at? (components rel) = some (.dir attr r x entries)) :
    t.inside rel = match entries.find? fun e => e.1 = dotGit with
      | none => false
      | some e => if e.2.1 = true ∧ e.2.2.fileType ≠ .symlink then true else t.hasGit rel := by
  have hstat : succeeds (t.sys.stat .inside (joinRel rel dotGit)) = t.hasGit rel := rfl
  rw [inside, hat]
  dsimp only
  rw [entryBuf_stream (t.valid _ _ _ _ _ hat), isRepoDir, List.find?_map, hstat]
  simp only [Function.comp_def]
  cases hfind : entries.find? fun e => e.1 = dotGit with
  | none => rfl
  | some e =>
    obtain ⟨name, typed, n⟩ := e
    cases typed with
    | false => rfl
    | true =>
      cases n with
      | file attr fileType plain =>
        obtain ⟨-, -, hunknown⟩ := plain
        cases fileType <;> first | rfl | exact absurd rfl hunknown
      | link attr resolve => rfl
      | dir attr r x entries => rfl

/-- A directory whose `.git` stats has it among its entries. -/
lemma inside_of_hasGit (hat : t.root.at? (components rel) = some (.dir attr r x entries))
    (hgit : t.hasGit rel = true) : t.inside rel = true := by
  rw [inside_eq hat]
  rw [hasGit_eq hat] at hgit
  cases hfind : entries.find? fun e => e.1 = dotGit with
  | none => simp [Node.lookup, hfind, succeeds, Except.toBool] at hgit
  | some e =>
    rw [← hasGit_eq hat] at hgit
    simp [hgit]

/-- The type of an entry is found out unless it is neither reported nor to be asked for. -/
lemma entryKind_eq (hat : t.root.at? (components rel) = some (.dir attr r x entries))
    (hpass : t.root.passable (components rel) = true) (he : e ∈ entries) :
    entryKind t.sys rel ⟨e.1, Kind.fromFileType (if e.2.1 then e.2.2.fileType else .unknown)⟩ =
      if !e.2.1 && !x then none else some (Kind.fromFileType e.2.2.fileType) := by
  have hlink : e.2.2.find false [] = .ok e.2.2.stat := by cases e.2.2 <;> rfl
  have hstat : t.sys.lstat (joinRel rel e.1) = if x then .ok e.2.2.stat else .error .ACCESS := by
    have hfind := find_entry false hat hpass he []
    rw [List.append_nil, hlink] at hfind
    exact hfind
  obtain ⟨name, typed, n⟩ := e
  cases typed with
  | false => cases x <;> simp [entryKind, hstat, Kind.fromFileType, Except.toOption, Node.stat]
  | true => simp [entryKind, Node.kind_ne_unknown]

end Directory

/-! ## All that is come upon -/

/-- The directories entered from one are those of its entries whose verdict is to enter them. -/
lemma mem_entered {rel child : Bytes} : child ∈ t.entered wildmatch exclude rel ↔
    ∃ attr r x entries, t.root.at? (components rel) = some (.dir attr r x entries) ∧
      t.inside rel = false ∧
      ∃ e ∈ entries, t.verdict wildmatch exclude rel x e = .entered ∧ child = joinRel rel e.1 := by
  unfold entered
  split
  · rename_i attr r x entries hat
    cases hinside : t.inside rel with
    | true => simp [hat]
    | false => simp [hat, eq_comm, and_assoc]
  · rename_i hat
    simp only [List.not_mem_nil, false_iff, not_exists, not_and]
    exact fun attr r x entries h => absurd h (hat attr r x entries)

/-- The directories that can be read run out. -/
lemma exists_unfolds_entered (wildmatch : Bytes → Bytes → Bool) (exclude : List Bytes) (t : Tree)
    (rels : List Bytes) : ∃ visited, Unfolds (t.entered wildmatch exclude) rels visited := by
  refine Unfolds.exists_of_rank t.rank (fun rel child h => ?_) rels
  obtain ⟨attr, r, x, entries, hat, -, e, he, -, rfl⟩ := mem_entered.mp h
  exact rank_joinRel_lt hat he

/-- What is come upon from some directories on. -/
noncomputable def found (wildmatch : Bytes → Bytes → Bool) (exclude : List Bytes) (t : Tree)
    (spared : Bytes → Bool) (rels : List Bytes) : Multiset Finding :=
  ((unfolding (t.entered wildmatch exclude) rels).flatMap (t.ownFound wildmatch exclude spared) :
    List Finding)

/-- Nothing is found from nowhere. -/
@[simp] lemma found_nil : t.found wildmatch exclude spared [] = 0 := by
  rw [found, Unfolds.unfolding_eq .nil]
  rfl

/-- What is found from two lists of directories adds up. -/
lemma found_append (p q : List Bytes) : t.found wildmatch exclude spared (p ++ q) =
    t.found wildmatch exclude spared p + t.found wildmatch exclude spared q := by
  rw [found, unfolding_append (exists_unfolds_entered wildmatch exclude t), List.flatMap_append]
  rfl

/-- What is found from a directory is its own, and what is found from those entered from it. -/
lemma found_singleton (rel : Bytes) : t.found wildmatch exclude spared [rel] =
    (t.ownFound wildmatch exclude spared rel : Multiset Finding) +
      t.found wildmatch exclude spared (t.entered wildmatch exclude rel) := by
  rw [found, unfolding_singleton (exists_unfolds_entered wildmatch exclude t), List.flatMap_cons]
  rfl

/-- What is found is found in some directory that is entered, in one or more steps. -/
lemma mem_found {rels : List Bytes} {f : Finding} : f ∈ t.found wildmatch exclude spared rels ↔
    ∃ rel ∈ rels, ∃ rel', Relation.ReflTransGen
      (fun a b => b ∈ t.entered wildmatch exclude a) rel rel' ∧
      f ∈ t.ownFound wildmatch exclude spared rel' := by
  have hunfolds := unfolds_unfolding (exists_unfolds_entered wildmatch exclude t) rels
  rw [found, Multiset.mem_coe, List.mem_flatMap]
  constructor
  · rintro ⟨rel', hrel', hf⟩
    obtain ⟨rel, hrel, hreads⟩ := hunfolds.mem_iff.mp hrel'
    exact ⟨rel, hrel, rel', hreads, hf⟩
  · rintro ⟨rel, hrel, rel', hreads, hf⟩
    exact ⟨rel', hunfolds.mem_iff.mpr ⟨rel, hrel, hreads⟩, hf⟩

/-- From a repository on there is nothing but itself. -/
lemma found_of_inside {rel : Bytes} {attr : Attr} {r x : Bool}
    {entries : List (Bytes × Bool × Node)}
    (hat : t.root.at? (components rel) = some (.dir attr r x entries))
    (hinside : t.inside rel = true) : t.found wildmatch exclude spared [rel] = {.repo rel} := by
  have hentered : t.entered wildmatch exclude rel = [] := by simp [entered, hat, hinside]
  rw [found_singleton, hentered, found_nil, add_zero]
  simp [ownFound, hat, hinside]

/-! ## What a job reports -/

/-- The jobs of a walk of the tree: they are for directories, and carry a descriptor only if the
directory could be opened. -/
structure Runs (t : Tree) (job : Job) : Prop where
  dir : ∃ attr r x entries, t.root.at? (components job.rel) = some (.dir attr r x entries)
  opened : job.fd = true → t.opens job.rel = true

/-- What a job stands for. -/
noncomputable def worth (wildmatch : Bytes → Bytes → Bool) (exclude : List Bytes) (t : Tree)
    (spared : Bytes → Bool) (job : Job) : Multiset Finding :=
  if t.opens job.rel then t.found wildmatch exclude spared [job.rel] else {.dropped job.rel}

/-- What is found at hand together with what the jobs stand for is so much. -/
def Pays (wildmatch : Bytes → Bytes → Bool) (exclude : List Bytes) (t : Tree)
    (spared : Bytes → Bool)
    (recorded : Bool) (step : Out × List Job) (total : Multiset Finding) : Prop :=
  (∀ child ∈ step.2, t.Runs child) ∧ ∃ own, step.1.Reports recorded own ∧
    total = own + (step.2.map (t.worth wildmatch exclude spared)).sum

/-- Whether the walk takes a directory that it cannot open, and whose `.git` stats, for a
repository: the stat-first strategy does, and the other one does unless its budget is used up. -/
def sparedBy (detect : DetectStrategy) (full : Bytes → Bool) (rel : Bytes) : Bool :=
  decide (detect = .statFirst) || !full rel

section Jobs

variable {opts : WalkOptions} {full : Bytes → Bool} {rel : Bytes} {attr : Attr} {r x : Bool}
  {entries : List (Bytes × Bool × Node)} {e : Bytes × Bool × Node}

/-- An output without jobs stands for what it reports. -/
lemma Pays.of_reports {out : Out} {recorded : Bool} {total : Multiset Finding}
    (h : out.Reports recorded total) :
    Pays wildmatch exclude t spared recorded (out, []) total :=
  ⟨by simp, total, h, by simp⟩

/-- A job alone stands for its worth. -/
lemma Pays.of_job {job : Job} {recorded : Bool} (h : t.Runs job) :
    Pays wildmatch exclude t spared recorded (Out.new, [job])
      (t.worth wildmatch exclude spared job) :=
  ⟨by simpa using h, 0, .new, by simp⟩

/-- Two steps together stand for the sum. -/
lemma Pays.merge {step step' : Out × List Job} {recorded : Bool} {total total' : Multiset Finding}
    (h : Pays wildmatch exclude t spared recorded step total)
    (h' : Pays wildmatch exclude t spared recorded step' total') :
    Pays wildmatch exclude t spared recorded (step.1.merge step'.1, step.2 ++ step'.2)
      (total + total') := by
  obtain ⟨hfits, own, hown, rfl⟩ := h
  obtain ⟨hfits', own', hown', rfl⟩ := h'
  refine ⟨fun child hchild => ?_, own + own', hown.merge hown', ?_⟩
  · exact (List.mem_append.mp hchild).elim (hfits child) (hfits' child)
  · rw [List.map_append, List.sum_append, add_add_add_comm]

/-- What is found at hand and what is queued, entry by entry. -/
lemma Pays.mergeAll {α : Type} {items : List α} {steps : α → Out × List Job} {recorded : Bool}
    {totals : α → Multiset Finding}
    (h : ∀ a ∈ items, Pays wildmatch exclude t spared recorded (steps a) (totals a)) :
    Pays wildmatch exclude t spared recorded
      (Out.mergeAll (items.map fun a => (steps a).1), items.flatMap fun a => (steps a).2)
      (items.map totals).sum := by
  induction items with
  | nil => exact .of_reports .new
  | cons a items ih =>
    obtain ⟨ha, hitems⟩ := List.forall_mem_cons.mp h
    rw [List.map_cons, List.map_cons, List.flatMap_cons, Out.mergeAll_cons, List.sum_cons]
    exact ha.merge (ih hitems)

/-- `queue_child` on a directory of the tree. -/
lemma queueChild_pays (hat : t.root.at? (components rel) = some (.dir attr r x entries)) :
    Pays wildmatch exclude t spared opts.record (queueChild t.sys opts full rel)
      (if t.opens rel then t.found wildmatch exclude spared [rel]
        else if t.hasGit rel && !full rel then {.repo rel} else {.dropped rel}) := by
  have hopenAt : t.sys.openAt rel = if t.opens rel then .ok () else .error .ACCESS := openDir_eq hat
  have hgit : succeeds (t.sys.stat .refused (joinRel rel dotGit)) = t.hasGit rel := rfl
  have hjob : ∀ fd, (fd = true → t.opens rel = true) →
      Pays wildmatch exclude t spared opts.record (Out.new, [⟨fd, rel⟩])
        (if t.opens rel then t.found wildmatch exclude spared [rel] else {.dropped rel}) :=
    fun fd hfd => .of_job ⟨⟨attr, r, x, entries, hat⟩, hfd⟩
  unfold queueChild
  rw [hopenAt, hgit]
  cases hfull : full rel with
  | true => simpa using hjob false nofun
  | false =>
    cases hopens : t.opens rel with
    | true => simpa [hopens] using hjob true fun _ => hopens
    | false =>
      cases t.hasGit rel with
      | true => exact .of_reports (.emit rel)
      | false => exact .of_reports (.noteIncomplete rel)

/-- The directory arm. -/
lemma readDirectory_pays (hat : t.root.at? (components rel) = some (.dir attr r x entries))
    (name : Bytes) :
    Pays wildmatch opts.exclude t (sparedBy opts.detect full) opts.record
      (readDirectory wildmatch t.sys opts full rel name)
      (if isExcluded wildmatch opts.exclude rel then {.pruned rel}
        else if dotGit <:+ name then {.repo rel}
        else if t.opens rel then t.found wildmatch opts.exclude (sparedBy opts.detect full) [rel]
        else if t.hasGit rel && sparedBy opts.detect full rel then {.repo rel}
        else {.dropped rel}) := by
  have hgit : succeeds (t.sys.stat .statFirst (joinRel rel dotGit)) = t.hasGit rel := rfl
  -- Where the stat-first stat has not settled it, what is spared is what the budget leaves.
  have hsame : ¬(opts.detect = .statFirst ∧ t.hasGit rel = true) →
      (t.hasGit rel && sparedBy opts.detect full rel) = (t.hasGit rel && !full rel) := by
    intro hfirst
    cases hgit : t.hasGit rel with
    | false => rfl
    | true =>
      have hdetect : opts.detect ≠ .statFirst := fun h => hfirst ⟨h, hgit⟩
      simp [sparedBy, hdetect]
  have hqueue : Pays wildmatch opts.exclude t (sparedBy opts.detect full) opts.record
      (queueChild t.sys opts full rel) _ := queueChild_pays hat
  unfold readDirectory
  rw [hgit]
  split_ifs with hexcluded hname hfirst hopens hspared hopens hspared
  · exact .of_reports (.noteExcluded rel)
  · exact .of_reports (.emit rel)
  · -- The stat sees from outside the `.git` that reading the directory would find.
    rw [found_of_inside hat (inside_of_hasGit hat hfirst.2)]
    exact .of_reports (.emit rel)
  · exact .of_reports (.emit rel)
  · exact absurd (by simp [sparedBy, hfirst]) hspared
  · rwa [if_pos hopens] at hqueue
  · rwa [if_neg hopens, if_pos (by rwa [← hsame hfirst])] at hqueue
  · rwa [if_neg hopens, if_neg (by rwa [← hsame hfirst])] at hqueue

/-- What an entry amounts to with all that is read after it. -/
lemma entFound_add (wildmatch : Bytes → Bytes → Bool) (exclude : List Bytes) (t : Tree)
    (spared : Bytes → Bool) (rel : Bytes) (x : Bool) (e : Bytes × Bool × Node) :
    ((t.entFound wildmatch exclude spared rel x e : Multiset Finding) +
      if t.verdict wildmatch exclude rel x e = .entered then
        t.found wildmatch exclude spared [joinRel rel e.1] else 0) =
    match t.verdict wildmatch exclude rel x e with
    | .ignored => 0
    | .pruned => {.pruned (joinRel rel e.1)}
    | .emitted => {.repo (joinRel rel e.1)}
    | .entered => t.found wildmatch exclude spared [joinRel rel e.1]
    | .barred => if t.hasGit (joinRel rel e.1) && spared (joinRel rel e.1) then
        {.repo (joinRel rel e.1)} else {.dropped (joinRel rel e.1)} := by
  unfold entFound
  cases t.verdict wildmatch exclude rel x e with
  | barred => split_ifs <;> simp_all
  | _ => simp

/-- One turn of the entry loop, in a directory that can be opened. -/
lemma readEnt_pays (hat : t.root.at? (components rel) = some (.dir attr r x entries))
    (hopens : t.opens rel = true) (he : e ∈ entries) :
    Pays wildmatch opts.exclude t (sparedBy opts.detect full) opts.record
      (readEnt wildmatch t.sys opts full rel
        ⟨e.1, Kind.fromFileType (if e.2.1 then e.2.2.fileType else .unknown)⟩)
      (t.entFound wildmatch opts.exclude (sparedBy opts.detect full) rel x e +
        if t.verdict wildmatch opts.exclude rel x e = .entered then
          t.found wildmatch opts.exclude (sparedBy opts.detect full) [joinRel rel e.1] else 0) := by
  have hchild : t.root.at? (components (joinRel rel e.1)) = some e.2.2 := by
    rw [components_joinRel (t.valid _ attr r x entries hat e he), at?_entry hat he]
  rw [readEnt, entryKind_eq hat (passable_of_opens hat hopens) he, entFound_add, verdict]
  by_cases hunknown : (!e.2.1 && !x) = true
  · rw [if_pos hunknown, if_pos hunknown]
    exact .of_reports .new
  · rw [if_neg hunknown, if_neg hunknown]
    obtain ⟨name, typed, n⟩ := e
    cases n with
    | file attr fileType plain =>
      have hother : Kind.fromFileType fileType = .other := by
        obtain ⟨hdirectory, hsymlink, hunknown⟩ := plain
        cases fileType <;> first | rfl | exact absurd rfl ‹_›
      simpa [Node.fileType, hother] using Pays.of_reports (.new)
    | link attr resolve =>
      simp only [Node.fileType, Kind.fromFileType, readSymlink_tree]
      by_cases hexcluded : isExcluded wildmatch opts.exclude (joinRel rel name) = true
      · simpa [hexcluded] using Pays.of_reports (.noteExcluded _)
      · by_cases hrepo : t.leadsToDir (joinRel rel name) = true ∧
            (dotGit <:+ name ∨ t.hasGit (joinRel rel name) = true)
        · simpa [hexcluded, hrepo] using Pays.of_reports (.emit _)
        · simpa [hexcluded, hrepo] using Pays.of_reports (.new)
    | dir attr' r' x' entries' =>
      have hpays : Pays wildmatch opts.exclude t (sparedBy opts.detect full) opts.record
        (readDirectory wildmatch t.sys opts full (joinRel rel name) name) _ :=
          readDirectory_pays hchild name
      simp only [Node.fileType, Kind.fromFileType]
      split_ifs at hpays ⊢ <;> exact hpays

/-- What the entries of a directory come to, with all that is read after them. -/
lemma sum_entFound (wildmatch : Bytes → Bytes → Bool) (exclude : List Bytes) (t : Tree)
    (spared : Bytes → Bool) (rel : Bytes) (x : Bool) (entries : List (Bytes × Bool × Node)) :
    (entries.map fun e => (t.entFound wildmatch exclude spared rel x e : Multiset Finding) +
      if t.verdict wildmatch exclude rel x e = .entered then
        t.found wildmatch exclude spared [joinRel rel e.1] else 0).sum =
    (entries.flatMap (t.entFound wildmatch exclude spared rel x) : List Finding) +
      t.found wildmatch exclude spared
        ((entries.filter fun e => t.verdict wildmatch exclude rel x e = .entered).map fun e =>
          joinRel rel e.1) := by
  induction entries with
  | nil => simp
  | cons e entries ih =>
    rw [List.map_cons, List.sum_cons, ih, List.flatMap_cons, ← Multiset.coe_add, add_add_add_comm]
    by_cases hentered : t.verdict wildmatch exclude rel x e = .entered
    · rw [if_pos hentered, List.filter_cons_of_pos (by simpa using hentered), List.map_cons,
        ← found_append]
      rfl
    · rw [if_neg hentered, List.filter_cons_of_neg (by simpa using hentered), zero_add]

/-- `read_dir` on a directory that can be opened. -/
lemma readDir_pays (hat : t.root.at? (components rel) = some (.dir attr r x entries))
    (hopens : t.opens rel = true) :
    Pays wildmatch opts.exclude t (sparedBy opts.detect full) opts.record
      (readDir wildmatch t.sys opts full rel)
      (t.found wildmatch opts.exclude (sparedBy opts.detect full) [rel]) := by
  have hdirNew : t.sys.dirNew rel = .ok () := by
    have := openDir_eq hat
    rwa [hopens, if_pos rfl] at this
  have hstream : t.sys.readDir rel = ((Node.dir attr r x entries).stream, none) := by
    simp [Tree.sys, hat]
  have hdirFd : t.sys.dirFd rel = .ok () := rfl
  have hinside : isRepoDir t.sys (entryBuf (Node.dir attr r x entries).stream) rel =
      t.inside rel := by
    rw [inside, hat]
  cases hrepo : t.inside rel with
  | true =>
    rw [found_of_inside hat hrepo]
    simp only [readDir, hdirNew, hstream, hdirFd, hinside, hrepo, if_true]
    have hemit : (Out.emit opts.record rel).Reports opts.record {.repo rel} := .emit rel
    exact .of_reports (by simpa using Out.Reports.noteRead.merge hemit)
  | false =>
    have hnote : (Out.noteDir opts.record rel (recordedMtime t.sys opts rel)).Reports opts.record
        {.dir rel (mtimeNs ⟨attr, .directory⟩)} := by
      have hfstat : t.sys.fstat rel = .ok ⟨attr, .directory⟩ := by
        have hfind := Node.find_append false (Tree.validPath hat) hat []
        rw [List.append_nil, passable_of_opens hat hopens] at hfind
        exact hfind
      rw [recordedMtime, hfstat]
      cases hrecord : opts.record with
      | true => exact .noteDir rel _
      | false =>
        show (Out.noteDir false rel (mtimeNs ⟨attr, .directory⟩)).Reports false _
        exact .noteDir rel _
    have hself : Pays wildmatch opts.exclude t (sparedBy opts.detect full) opts.record
        (Out.noteRead.merge (Out.noteDir opts.record rel (recordedMtime t.sys opts rel)), [])
        {.dir rel (mtimeNs ⟨attr, .directory⟩)} :=
      .of_reports (by simpa using Out.Reports.noteRead.merge hnote)
    have hents : Pays wildmatch opts.exclude t (sparedBy opts.detect full) opts.record _ _ :=
      Pays.mergeAll fun e he =>
        @readEnt_pays wildmatch t opts full rel attr r x entries e hat hopens he
    have htotal : t.found wildmatch opts.exclude (sparedBy opts.detect full) [rel] =
        {.dir rel (mtimeNs ⟨attr, .directory⟩)} +
        (entries.map fun e =>
          (t.entFound wildmatch opts.exclude
            (sparedBy opts.detect full) rel x e : Multiset Finding) +
          if t.verdict wildmatch opts.exclude rel x e = .entered then
            t.found wildmatch opts.exclude (sparedBy opts.detect full)
              [joinRel rel e.1] else 0).sum := by
      rw [sum_entFound, found_singleton, ← add_assoc]
      simp [ownFound, entered, hat, hrepo, ← Multiset.cons_coe]
    have hread := hself.merge hents
    have hstreamed := @entryBuf_stream attr r x entries (t.valid _ _ _ _ _ hat)
    rw [hstreamed] at hinside
    rw [htotal]
    simp only [readDir, hdirNew, hstream, hdirFd, hstreamed, hinside, hrepo, Bool.false_eq_true,
      if_false, List.map_map, List.flatMap_map, Out.mergeAll_cons, ← Out.merge_assoc]
    exact hread

/-- Running a job reports what the job stands for, together with the jobs it queues. -/
lemma run_pays {job : Job} (hfits : t.Runs job) :
    Pays wildmatch opts.exclude t (sparedBy opts.detect full) opts.record
      (run wildmatch t.sys opts full job)
      (t.worth wildmatch opts.exclude (sparedBy opts.detect full) job) := by
  obtain ⟨⟨attr, r, x, entries, hat⟩, hopened⟩ := hfits
  have hopenPath : t.sys.openPath job.rel = if t.opens job.rel then .ok () else .error .ACCESS :=
    openDir_eq hat
  cases hopens : t.opens job.rel with
  | true =>
    have hrun : run wildmatch t.sys opts full job = readDir wildmatch t.sys opts full job.rel := by
      rw [run, hopenPath, hopens]
      simp
    rw [hrun, worth, hopens, if_pos rfl]
    exact readDir_pays hat hopens
  | false =>
    have hfd : job.fd = false := Bool.eq_false_iff.mpr fun hfd => by simp [hopened hfd] at hopens
    rw [run, hfd, hopenPath, worth, hopens]
    exact .of_reports (.noteIncomplete job.rel)

end Jobs

/-! ## A whole walk -/

/-- Outputs are merged from the right as from the left. -/
lemma mergeAll_eq_foldr (outs : List Out) : Out.mergeAll outs = outs.foldr Out.merge Out.new := by
  induction outs with
  | nil => rfl
  | cons out outs ih => rw [Out.mergeAll_cons, ih, List.foldr_cons]

variable {opts : WalkOptions} {full : Bytes → Bool}

/-- A sequential run reports what its jobs stand for. -/
lemma reports_of_drains {jobs : Multiset Job} {log : List (Job × Out)}
    (h : Drains (JobRunsCapped wildmatch full t.sys opts) jobs log)
    (hfits : ∀ job ∈ jobs, t.Runs job) :
    (Out.mergeAll (log.map Prod.snd)).Reports opts.record
      (jobs.map (t.worth wildmatch opts.exclude (sparedBy opts.detect full))).sum := by
  rw [mergeAll_eq_foldr]
  refine h.describes (D := fun found out => out.Reports opts.record found) .new
    (fun h h' => h.merge h') (P := t.Runs) (fun {job children out} hrun hjob => ?_) hfits
  have hpays : Pays wildmatch opts.exclude t (sparedBy opts.detect full) opts.record
      (run wildmatch t.sys opts full job) _ := run_pays hjob
  rw [show run wildmatch t.sys opts full job = (out, children) from hrun] at hpays
  exact hpays

/-- The walk of this root opens the root and reads it. -/
structure WalksInto (t : Tree) (root : Bytes) : Prop where
  noNul : 0 ∉ root
  walkable : rootIsWalkable t.host = true
  notBare : isBareRoot root = false
  opens : t.opens [] = true

instance (t : Tree) (root : Bytes) : Decidable (t.WalksInto root) :=
  decidable_of_iff (0 ∉ root ∧ rootIsWalkable t.host = true ∧ isBareRoot root = false ∧
      t.opens [] = true)
    ⟨fun ⟨h₁, h₂, h₃, h₄⟩ => ⟨h₁, h₂, h₃, h₄⟩, fun ⟨h₁, h₂, h₃, h₄⟩ => ⟨h₁, h₂, h₃, h₄⟩⟩

variable {root : Bytes}

/-- A root that can be opened by path is opened. -/
lemma openDir_root (h : t.opens [] = true) : t.root.openDir [] = .ok () := by
  rw [opens, show components [] = [] from rfl] at h
  cases hopen : t.root.openDir [] with
  | ok => rfl
  | error err => simp [hopen, succeeds, Except.toBool] at h

/-- A root that is walked into is a directory. -/
lemma WalksInto.isDir (h : t.WalksInto root) :
    ∃ attr r x entries, t.root.at? (components []) = some (.dir attr r x entries) := by
  have hopen := openDir_root h.opens
  cases hroot : t.root with
  | dir attr r x entries => exact ⟨attr, r, x, entries, rfl⟩
  | _ => simp [hroot, Node.openDir] at hopen

end Tree

variable {wildmatch : Bytes → Bytes → Bool} {t : Tree} {opts : WalkOptions} {full : Bytes → Bool}
  {root : Bytes} {result : Except WalkError RootListing}

/-- `walk_root` reports what there is to be come upon from the root on, whatever the schedule. -/
theorem WalkRootCapped.reports (hinto : t.WalksInto root)
    (h : WalkRootCapped wildmatch full t.host root opts result) :
    ∃ listing, result = .ok listing ∧ listing.Reports opts.record
      (t.found wildmatch opts.exclude (Tree.sparedBy opts.detect full) [[]]) := by
  obtain ⟨listing, log, rfl, hdrains, hequiv⟩ :=
    h.drains wildmatch hinto.noNul hinto.walkable hinto.notBare (Tree.openDir_root hinto.opens)
      (Tree.openDir_root hinto.opens)
  have hreports := Tree.reports_of_drains hdrains fun job hjob => by
    obtain rfl := Multiset.mem_singleton.mp hjob
    exact ⟨hinto.isDir, fun _ => hinto.opens⟩
  refine ⟨listing, rfl, .of_equiv hequiv ?_⟩
  rw [Multiset.map_singleton, Multiset.sum_singleton, Tree.worth] at hreports
  rwa [show rootJob.rel = [] from rfl, if_pos hinto.opens] at hreports

/-- Where the root is not walked into, the result depends on nothing but the root. -/
lemma WalkRootCapped.eq_of_not_walksInto (hinto : ¬t.WalksInto root)
    {full' : Bytes → Bool} {opts' : WalkOptions} {result' : Except WalkError RootListing}
    (h : WalkRootCapped wildmatch full t.host root opts result)
    (h' : WalkRootCapped wildmatch full' t.host root opts' result')
    (hrecord : opts.record = opts'.record) : result = result' := by
  unfold WalkRootCapped at h h'
  split_ifs at h h' with hnul hwalkable hbare
  · rw [h, h']
  · rw [h, h']
  · rw [h, h', hrecord]
  · have hopen : ∃ err, t.host.openBase = .error err := by
      cases hopen : t.host.openBase with
      | error err => exact ⟨err, rfl⟩
      | ok =>
        have hopens : t.opens [] = true := by
          rw [Tree.opens, show t.root.openDir (components []) = .ok () from hopen]
          rfl
        exact absurd ⟨hnul, by simpa using hwalkable, by simpa using hbare, hopens⟩ hinto
    obtain ⟨err, hopen⟩ := hopen
    rw [hopen] at h h'
    rw [h, h']

/-- `walk_subtrees` of some directories reports what there is to be come upon from those on that can
be opened, and drops the others. -/
theorem WalkSubtreesCapped.reports {rels : List Bytes} (hnul : 0 ∉ root)
    (hopens : t.opens [] = true) (hdirs : ∀ rel ∈ rels, ∃ attr r x entries,
      t.root.at? (components rel) = some (.dir attr r x entries))
    (h : WalkSubtreesCapped wildmatch full t.host root rels opts result) :
    ∃ listing, result = .ok listing ∧ listing.Reports opts.record
      (rels.map fun rel => if t.opens rel then
        t.found wildmatch opts.exclude (Tree.sparedBy opts.detect full) [rel]
        else {.dropped rel}).sum := by
  obtain ⟨listing, log, rfl, hdrains, hequiv⟩ := h.drains wildmatch hnul (Tree.openDir_root hopens)
  have hreports := Tree.reports_of_drains hdrains fun job hjob => by
    obtain ⟨rel, hrel, rfl⟩ := List.mem_map.mp (by simpa using hjob)
    exact ⟨hdirs rel hrel, nofun⟩
  refine ⟨listing, rfl, .of_equiv hequiv ?_⟩
  rw [Multiset.map_coe, Multiset.sum_coe, List.map_map] at hreports
  exact hreports

/-- The jobs of a walk of the tree run out. -/
lemma Tree.exists_unfolds_run (wildmatch : Bytes → Bytes → Bool) (t : Tree) (opts : WalkOptions)
    (full : Bytes → Bool) (queue : List Job) :
    ∃ visited, Unfolds (fun job => (run wildmatch t.sys opts full job).2) queue visited := by
  refine Unfolds.exists_of_rank (fun job => t.rank job.rel) (fun job child hchild => ?_) queue
  obtain ⟨e, fileType, he, -, hrel⟩ := (run_known job).2 child hchild
  obtain ⟨attr, r, x, entries, hat, d, hd, rfl⟩ := Tree.lists_iff.mp he
  rw [hrel]
  exact Tree.rank_joinRel_lt hat hd

/-- The pool can always finish. -/
lemma PoolReturnsCapped.exists_tree (wildmatch : Bytes → Bytes → Bool) (t : Tree)
    (opts : WalkOptions) (full : Bytes → Bool) (queue : List Job) :
    ∃ parts, PoolReturnsCapped wildmatch full t.sys opts queue parts := by
  obtain ⟨visited, hvisited⟩ := t.exists_unfolds_run wildmatch opts full queue
  have hstart : Pool.Reachable (JobRunsCapped wildmatch full t.sys opts) queue
      (Pool.start queue : Pool Job Out (poolThreads opts.threads)) :=
        Transition.Reachable.initial rfl
  have hruns : ∀ {job children out}, JobRunsCapped wildmatch full t.sys opts job children out →
      children.map id = (fun job => (run wildmatch t.sys opts full job).2) (id job) := by
    intro job children out hrun
    rw [List.map_id]
    exact (congrArg Prod.snd hrun).symm
  have htotal : ∀ job, ∃ children out, JobRunsCapped wildmatch full t.sys opts job children out :=
    fun job => ⟨_, _, rfl⟩
  obtain ⟨p, hrun, hfinished⟩ := hstart.can_finish htotal hruns
    (by rwa [List.map_id]) fun w => by simp [Pool.start, Phase.failed]
  exact ⟨_, p, ⟨_, rfl, hrun⟩, hfinished, rfl⟩

/-- `walk_root` of a tree can always return. -/
lemma WalkRootCapped.exists_tree (wildmatch : Bytes → Bytes → Bool) (t : Tree) (root : Bytes)
    (opts : WalkOptions) (full : Bytes → Bool) :
    ∃ result, WalkRootCapped wildmatch full t.host root opts result := by
  unfold WalkRootCapped
  split_ifs
  · exact ⟨_, rfl⟩
  · exact ⟨_, rfl⟩
  · exact ⟨_, rfl⟩
  · split
    · by_cases hqueue : (readDir wildmatch t.host.sys opts full []).2 = []
      · exact ⟨_, (if_pos hqueue).mpr rfl⟩
      · obtain ⟨parts, hparts⟩ := PoolReturnsCapped.exists_tree wildmatch t opts full
          (readDir wildmatch t.host.sys opts full []).2
        exact ⟨_, (if_neg hqueue).mpr ⟨parts, hparts, rfl⟩⟩
    · exact ⟨_, rfl⟩

/-- `walk_subtrees` of a tree can always return. -/
lemma WalkSubtreesCapped.exists_tree (wildmatch : Bytes → Bytes → Bool) (t : Tree) (root : Bytes)
    (rels : List Bytes) (opts : WalkOptions) (full : Bytes → Bool) :
    ∃ result, WalkSubtreesCapped wildmatch full t.host root rels opts result := by
  unfold WalkSubtreesCapped
  split_ifs
  · exact ⟨_, rfl⟩
  · exact ⟨_, rfl⟩
  · split
    · exact ⟨_, rfl⟩
    · obtain ⟨parts, hparts⟩ := PoolReturnsCapped.exists_tree wildmatch t opts full
        (rels.map fun rel => ⟨false, rel⟩)
      exact ⟨_, parts, hparts, rfl⟩

end Scap
