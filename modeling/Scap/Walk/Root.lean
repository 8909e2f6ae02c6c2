import Scap.Walk.Pool
import Scap.Walk.Walker

/-!
# Walking a root

`walk_root` and `walk_subtrees` (`src/walk/mod.rs`).  Both hand a queue to the pool, so both are
relations: a result is one that some schedule of the workers leads to.
-/

namespace Scap

/-- What the kernel answers about the root itself, and about the paths below it. -/
structure Host where
  /-- `statat` of the root path, following symlinks. -/
  statRoot : Except Errno Stat
  /-- `openat` of the root path for the base descriptor. -/
  openBase : Except Errno Unit
  /-- `openat` of the root path for the descriptor the root is read through. -/
  openRead : Except Errno Unit
  /-- `openat` of the root path for the descriptor an index is validated against. -/
  openRoot : Except Errno Unit
  /-- `fstat` of that descriptor. -/
  fstatRoot : Except Errno Stat
  /-- The calls below the root. -/
  sys : Sys

/-- What one root's walk found. -/
abbrev RootListing := Out

/-- A root the walk could not open. -/
def RootListing.unreadable : RootListing := Out.noteIncomplete

/-- A failure that stops a root from being walked at all. -/
inductive WalkError where
  /-- The root path holds an interior NUL. -/
  | invalidRoot
deriving Repr, DecidableEq

/-- `Path::file_name`: the last component, unless it is `..`. -/
def fileName (path : Bytes) : Option Bytes :=
  match ((path.splitOn slash).filter fun part => !(part = [] || part = dot)).getLast? with
  | some part => if part = dotDot then none else some part
  | none => none

/-- Whether the root's own name makes it a bare repository. -/
def isBareRoot (root : Bytes) : Bool :=
  (fileName root).any fun name => decide (dotGit <:+ name)

/-- The name of a root that is not bare does not end in `.git`. -/
lemma not_suffix_of_not_isBareRoot {root : Bytes} (hbare : isBareRoot root = false) :
    ¬dotGit <:+ (fileName root).getD [] := by
  unfold isBareRoot at hbare
  cases hname : fileName root with
  | none => decide
  | some name => simpa [hname] using hbare

/-- `root_is_walkable`: the root is a directory with some read bit set. -/
def rootIsWalkable (host : Host) : Bool :=
  match host.statRoot with
  | .ok stat => decide (stat.fileType = .directory) && decide (stat.mode &&& 0o444 ≠ 0)
  | .error _ => false

/-- The number of workers `pool::run` starts. -/
def poolThreads (threads : ℕ) : ℕ := max 1 (min threads 64)

section

variable (wildmatch : Bytes → Bytes → Bool)

/-- What a job may do when a worker runs it; the state of the descriptor budget is left open. -/
def JobRuns (sys : Sys) (opts : WalkOptions) (job : Job) (children : List Job) (out : Out) : Prop :=
  ∃ full, run wildmatch sys opts full job = (out, children)

/-- `pool::run` returns these outputs, one per worker. -/
def PoolReturns (sys : Sys) (opts : WalkOptions) (queue : List Job) (parts : List Out) : Prop :=
  ∃ p : Pool Job Out (poolThreads opts.threads),
    Pool.Reachable (JobRuns wildmatch sys opts) queue p ∧ Pool.Finished p ∧
    parts = (List.finRange _).map fun w => Out.mergeAll ((p.workers w).log.map Prod.snd)

/-- `walk_root` returns `result`. -/
def WalkRoot (host : Host) (root : Bytes) (opts : WalkOptions)
    (result : Except WalkError RootListing) : Prop :=
  if 0 ∈ root then result = .error .invalidRoot
  else if !rootIsWalkable host then result = .ok Out.new
  else if isBareRoot root then result = .ok (Out.emit opts.record [])
  else
    match host.openBase, host.openRead with
    | .ok (), .ok () => ∃ full,
      let (out, queue) := readDir wildmatch host.sys opts full []
      if queue = [] then result = .ok out
      else ∃ parts, PoolReturns wildmatch host.sys opts queue parts ∧
        result = .ok (Out.mergeAll (out :: parts))
    | _, _ => result = .ok RootListing.unreadable

/-- `walk_subtrees` returns `result`. -/
def WalkSubtrees (host : Host) (root : Bytes) (rels : List Bytes) (opts : WalkOptions)
    (result : Except WalkError RootListing) : Prop :=
  if rels = [] then result = .ok Out.new
  else if 0 ∈ root then result = .error .invalidRoot
  else
    match host.openBase with
    | .error _ => result = .ok RootListing.unreadable
    | .ok () => ∃ parts,
      PoolReturns wildmatch host.sys opts (rels.map fun rel => ⟨false, rel⟩) parts ∧
        result = .ok (Out.mergeAll parts)

/-! ## A walk with its descriptor budget

`queue_child` tests the budget once for each path, so what the budget answers in the course of one
walk is one predicate on paths.  A cap of zero answers `true` everywhere, a cap that is never
reached `false` everywhere, and any other cap what the schedule makes of it. -/

/-- What a job does under a budget. -/
def JobRunsCapped (full : Bytes → Bool) (sys : Sys) (opts : WalkOptions) (job : Job)
    (children : List Job) (out : Out) : Prop :=
  run wildmatch sys opts full job = (out, children)

/-- `pool::run` returns these outputs under a budget. -/
def PoolReturnsCapped (full : Bytes → Bool) (sys : Sys) (opts : WalkOptions) (queue : List Job)
    (parts : List Out) : Prop :=
  ∃ p : Pool Job Out (poolThreads opts.threads),
    Pool.Reachable (JobRunsCapped wildmatch full sys opts) queue p ∧ Pool.Finished p ∧
    parts = (List.finRange _).map fun w => Out.mergeAll ((p.workers w).log.map Prod.snd)

/-- `walk_root_capped` returns `result`. -/
def WalkRootCapped (full : Bytes → Bool) (host : Host) (root : Bytes) (opts : WalkOptions)
    (result : Except WalkError RootListing) : Prop :=
  if 0 ∈ root then result = .error .invalidRoot
  else if !rootIsWalkable host then result = .ok Out.new
  else if isBareRoot root then result = .ok (Out.emit opts.record [])
  else
    match host.openBase, host.openRead with
    | .ok (), .ok () =>
      let (out, queue) := readDir wildmatch host.sys opts full []
      if queue = [] then result = .ok out
      else ∃ parts, PoolReturnsCapped wildmatch full host.sys opts queue parts ∧
        result = .ok (Out.mergeAll (out :: parts))
    | _, _ => result = .ok RootListing.unreadable

/-- `walk_subtrees` returns `result` under a budget. -/
def WalkSubtreesCapped (full : Bytes → Bool) (host : Host) (root : Bytes) (rels : List Bytes)
    (opts : WalkOptions) (result : Except WalkError RootListing) : Prop :=
  if rels = [] then result = .ok Out.new
  else if 0 ∈ root then result = .error .invalidRoot
  else
    match host.openBase with
    | .error _ => result = .ok RootListing.unreadable
    | .ok () => ∃ parts,
      PoolReturnsCapped wildmatch full host.sys opts (rels.map fun rel => ⟨false, rel⟩) parts ∧
        result = .ok (Out.mergeAll parts)

/-- A root that cannot be walked has an empty listing. -/
lemma WalkRootCapped.eq_of_not_walkable {full : Bytes → Bool} {host : Host} {root : Bytes}
    {opts : WalkOptions} {result : Except WalkError RootListing} (hnul : 0 ∉ root)
    (hwalkable : rootIsWalkable host = false)
    (h : WalkRootCapped wildmatch full host root opts result) : result = .ok Out.new := by
  rwa [WalkRootCapped, if_neg hnul, if_pos (by simp [hwalkable])] at h

/-- A bare root that can be walked is listed itself. -/
lemma WalkRootCapped.eq_of_isBareRoot {full : Bytes → Bool} {host : Host} {root : Bytes}
    {opts : WalkOptions} {result : Except WalkError RootListing} (hnul : 0 ∉ root)
    (hwalkable : rootIsWalkable host = true) (hbare : isBareRoot root = true)
    (h : WalkRootCapped wildmatch full host root opts result) :
    result = .ok (Out.emit opts.record []) := by
  rwa [WalkRootCapped, if_neg hnul, if_neg (by simp [hwalkable]), if_pos hbare] at h

/-! ## The sequential run behind a walk -/

/-- The workers' outputs folded together are the jobs' outputs folded together. -/
lemma Pool.mergeAll_parts {n : ℕ} (p : Pool Job Out n) :
    Out.mergeAll ((List.finRange n).map fun w => Out.mergeAll ((p.workers w).log.map Prod.snd)) =
      Out.mergeAll p.merged := by
  have := Out.mergeAll_map_mergeAll ((List.finRange n).map fun w =>
    (p.workers w).log.map Prod.snd)
  rwa [List.map_map, ← List.flatMap_def] at this

/-- What the workers of a finished pool return is, up to order, what a sequential run adds up to. -/
lemma Pool.Reachable.mergeAll_parts {runs : Job → List Job → Out → Prop} {queue : List Job} {n : ℕ}
    {p : Pool Job Out n} (h : Pool.Reachable runs queue p) (hn : 0 < n)
    (hfinished : Pool.Finished p) :
    ∃ log : List (Job × Out), Drains runs (queue : Multiset Job) log ∧
      (Out.mergeAll ((List.finRange n).map fun w =>
        Out.mergeAll ((p.workers w).log.map Prod.snd))).Equiv
          (Out.mergeAll (log.map Prod.snd)) := by
  obtain ⟨log, hlog, hdrains⟩ := h.drains hn hfinished
  refine ⟨log, hdrains, ?_⟩
  rw [Pool.mergeAll_parts]
  refine Out.Equiv.mergeAll_perm (Multiset.coe_eq_coe.mp ?_)
  rw [Pool.coe_merged, ← hlog, Multiset.map_coe]

/-- There is at least one worker. -/
lemma poolThreads_pos (threads : ℕ) : 0 < poolThreads threads := by
  unfold poolThreads
  omega

/-- The pool does what some sequential run does. -/
lemma PoolReturns.drains {sys : Sys} {opts : WalkOptions} {queue : List Job} {parts : List Out}
    (h : PoolReturns wildmatch sys opts queue parts) :
    ∃ log : List (Job × Out), Drains (JobRuns wildmatch sys opts) (queue : Multiset Job) log ∧
      (Out.mergeAll parts).Equiv (Out.mergeAll (log.map Prod.snd)) := by
  obtain ⟨p, hreach, hfinished, rfl⟩ := h
  exact hreach.mergeAll_parts (poolThreads_pos _) hfinished

/-- The job that stands for the root, which is read through a descriptor of its own. -/
def rootJob : Job := ⟨true, []⟩

/-- The job of the root reads it. -/
@[simp] lemma run_rootJob (sys : Sys) (opts : WalkOptions) (full : Bytes → Bool) :
    run wildmatch sys opts full rootJob = readDir wildmatch sys opts full [] := rfl

/-- The pool does what some sequential run does. -/
lemma PoolReturnsCapped.drains {full : Bytes → Bool} {sys : Sys} {opts : WalkOptions}
    {queue : List Job} {parts : List Out}
    (h : PoolReturnsCapped wildmatch full sys opts queue parts) :
    ∃ log : List (Job × Out),
      Drains (JobRunsCapped wildmatch full sys opts) (queue : Multiset Job) log ∧
      (Out.mergeAll parts).Equiv (Out.mergeAll (log.map Prod.snd)) := by
  obtain ⟨p, hreach, hfinished, rfl⟩ := h
  exact hreach.mergeAll_parts (poolThreads_pos _) hfinished

/-- A root that is read on the calling thread before its queue goes to the pool is the first job of
a sequential run. -/
lemma drains_rootJob {runs : Job → List Job → Out → Prop} {returns : List Out → Prop} {out : Out}
    {queue : List Job} {result : Except WalkError RootListing} (hrun : runs rootJob queue out)
    (hreturns : ∀ {parts}, returns parts → ∃ log : List (Job × Out),
      Drains runs (queue : Multiset Job) log ∧
      (Out.mergeAll parts).Equiv (Out.mergeAll (log.map Prod.snd)))
    (h : if queue = [] then result = .ok out
      else ∃ parts, returns parts ∧ result = .ok (Out.mergeAll (out :: parts))) :
    ∃ listing log, result = .ok listing ∧ Drains runs {rootJob} log ∧
      listing.Equiv (Out.mergeAll (log.map Prod.snd)) := by
  split_ifs at h with hqueue
  · refine ⟨out, _, h, .cons hrun (by rw [hqueue]; exact .nil), ?_⟩
    simpa using Out.Equiv.refl out
  · obtain ⟨parts, hparts, h⟩ := h
    obtain ⟨log, hdrains, hequiv⟩ := hreturns hparts
    refine ⟨Out.mergeAll (out :: parts), _, h, .cons hrun (by rwa [add_zero]), ?_⟩
    rw [Out.mergeAll_cons, List.map_cons, Out.mergeAll_cons]
    exact (Out.Equiv.refl _).merge hequiv

/-- The walk of a root that it opens and reads is a sequential run that starts with the root. -/
lemma WalkRoot.drains {host : Host} {root : Bytes} {opts : WalkOptions}
    {result : Except WalkError RootListing} (hnul : 0 ∉ root)
    (hwalkable : rootIsWalkable host = true)
    (hbare : isBareRoot root = false) (hbase : host.openBase = .ok ())
    (hread : host.openRead = .ok ()) (h : WalkRoot wildmatch host root opts result) :
    ∃ listing log, result = .ok listing ∧ Drains (JobRuns wildmatch host.sys opts) {rootJob} log ∧
      listing.Equiv (Out.mergeAll (log.map Prod.snd)) := by
  rw [WalkRoot, if_neg hnul, hwalkable, hbare, hbase, hread] at h
  obtain ⟨full, h⟩ := h
  have hrun : JobRuns wildmatch host.sys opts rootJob (readDir wildmatch host.sys opts full []).2
      (readDir wildmatch host.sys opts full []).1 := ⟨full, rfl⟩
  exact drains_rootJob hrun (fun hparts => hparts.drains wildmatch) h

/-- The same with a budget. -/
lemma WalkRootCapped.drains {full : Bytes → Bool} {host : Host} {root : Bytes} {opts : WalkOptions}
    {result : Except WalkError RootListing} (hnul : 0 ∉ root)
    (hwalkable : rootIsWalkable host = true)
    (hbare : isBareRoot root = false) (hbase : host.openBase = .ok ())
    (hread : host.openRead = .ok ()) (h : WalkRootCapped wildmatch full host root opts result) :
    ∃ listing log, result = .ok listing ∧
      Drains (JobRunsCapped wildmatch full host.sys opts) {rootJob} log ∧
      listing.Equiv (Out.mergeAll (log.map Prod.snd)) := by
  rw [WalkRootCapped, if_neg hnul, hwalkable, hbare, hbase, hread] at h
  have hrun : JobRunsCapped wildmatch full host.sys opts rootJob
      (readDir wildmatch host.sys opts full []).2 (readDir wildmatch host.sys opts full []).1 := rfl
  exact drains_rootJob hrun (fun hparts => hparts.drains wildmatch) h

/-- The walk of some subtrees is a sequential run that starts with them. -/
lemma WalkSubtreesCapped.drains {full : Bytes → Bool} {host : Host} {root : Bytes}
    {rels : List Bytes}
    {opts : WalkOptions} {result : Except WalkError RootListing} (hnul : 0 ∉ root)
    (hbase : host.openBase = .ok ())
    (h : WalkSubtreesCapped wildmatch full host root rels opts result) :
    ∃ listing log, result = .ok listing ∧
      Drains (JobRunsCapped wildmatch full host.sys opts)
        ((rels.map fun rel => (⟨false, rel⟩ : Job) : List Job) : Multiset Job) log ∧
      listing.Equiv (Out.mergeAll (log.map Prod.snd)) := by
  rw [WalkSubtreesCapped, if_neg hnul, hbase] at h
  split_ifs at h with hrels
  · exact ⟨Out.new, [], h, by rw [hrels]; exact .nil, Out.Equiv.refl _⟩
  · obtain ⟨parts, hparts, h⟩ := h
    obtain ⟨log, hdrains, hequiv⟩ := hparts.drains
    exact ⟨Out.mergeAll parts, log, h, hdrains, hequiv⟩

end

end Scap
