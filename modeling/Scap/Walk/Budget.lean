import Scap.Foundations.Counters
import Scap.Walk.Flag
import Scap.Walk.Root

/-!
# The descriptor budget

`live_fds` counts the descriptors parked in the work queue (`src/walk/sys.rs`, `Ctx`,
`Walker::run`, `queue_child`; `src/walk/mod.rs`, `walk_root_capped`, `walk_subtrees`).  The pool of
`Scap.Walk.Pool` runs a job in one step and leaves the budget open; here a running job is taken
apart into its atomic steps, so that any other worker may move between the load of `live_fds`, the
`openat` and the `fetch_add` of one `queue_child`.

Two accounts are kept.  The counter is the number of jobs with a descriptor that have been counted
and not discounted, wherever they are (`Budget.counted`).  And the workers that stand between their
load and their `fetch_add` are those that may carry the counter past the cap (`SoftCap`).
-/

namespace Scap

open Function (update)

section

variable (wildmatch : Bytes → Bytes → Bool) (sys : Sys) (opts : WalkOptions)

/-! ## The calls of `queue_child` -/

/-- The path for which an entry makes `read_dir` call `queue_child`, if any. -/
def entCall (rel : Bytes) (ent : Ent) : Option Bytes :=
  match entryKind sys rel ent with
  | some .dir =>
    let path := joinRel rel ent.name
    if isExcluded wildmatch opts.exclude path then none
    else if dotGit <:+ ent.name then none
    else if opts.detect = .statFirst ∧ succeeds (sys.stat .statFirst (joinRel path dotGit)) then
      none
    else some path
  | _ => none

/-- The paths for which `read_dir` calls `queue_child`, in order. -/
def readDirCalls (rel : Bytes) : List Bytes :=
  match sys.dirNew rel with
  | .error _ => []
  | .ok () =>
    match sys.readDir rel with
    | (_, some _) => []
    | (entries, none) =>
      match sys.dirFd rel with
      | .error _ => []
      | .ok () =>
        let buf := entryBuf entries
        if isRepoDir sys buf rel then [] else buf.filterMap (entCall wildmatch sys opts rel)

/-- The paths for which running a job calls `queue_child`. -/
def runCalls (job : Job) : List Bytes :=
  if job.fd then readDirCalls wildmatch sys opts job.rel
  else
    match sys.openPath job.rel with
    | .ok () => readDirCalls wildmatch sys opts job.rel
    | .error _ => []

/-- The jobs `queue_child` makes for a path, given whether its load finds the budget used up. -/
def childJobs (full : Bool) (rel : Bytes) : List Job := (queueChild sys opts (fun _ => full) rel).2

variable (full : Bytes → Bool)

/-- The jobs that reading an entry leaves are those of its call. -/
lemma readEnt_jobs (rel : Bytes) (ent : Ent) :
    (readEnt wildmatch sys opts full rel ent).2 =
      (entCall wildmatch sys opts rel ent).toList.flatMap fun path =>
        childJobs sys opts (full path) path := by
  unfold readEnt entCall
  cases entryKind sys rel ent with
  | none => rfl
  | some kind =>
    cases kind with
    | dir =>
      unfold readDirectory
      dsimp only
      split_ifs
      · rfl
      · rfl
      · rfl
      · exact (List.append_nil _).symm
    | _ => rfl

/-- The jobs that reading a directory leaves are those of its calls. -/
lemma readDir_jobs (rel : Bytes) :
    (readDir wildmatch sys opts full rel).2 =
      (readDirCalls wildmatch sys opts rel).flatMap fun path =>
        childJobs sys opts (full path) path := by
  unfold readDir readDirCalls
  cases sys.dirNew rel with
  | error err => rfl
  | ok =>
    obtain ⟨entries, _ | err⟩ := sys.readDir rel
    · cases sys.dirFd rel with
      | error err => rfl
      | ok =>
        dsimp only
        split_ifs
        · rfl
        · rw [List.flatMap_map]
          simp only [readEnt_jobs, List.filterMap_eq_flatMap_toList, List.flatMap_assoc]
    · rfl

/-- The jobs a run makes are those of its calls, one after the other. -/
lemma run_jobs (job : Job) :
    (run wildmatch sys opts full job).2 =
      (runCalls wildmatch sys opts job).flatMap fun path =>
        childJobs sys opts (full path) path := by
  unfold run runCalls
  split_ifs
  · exact readDir_jobs ..
  · cases sys.openPath job.rel with
    | ok => exact readDir_jobs ..
    | error err => cases err <;> rfl

/-! ## One thread's reading -/

/-- Jobs that `queue_child` makes for these paths, one call after the other; what the loads find is
left open. -/
inductive QueuedFor : List Bytes → List Job → Prop
  /-- No calls yet. -/
  | nil : QueuedFor [] []
  /-- One more call. -/
  | snoc {paths : List Bytes} {jobs : List Job} (full : Bool) (rel : Bytes) :
      QueuedFor paths jobs → QueuedFor (paths ++ [rel]) (jobs ++ childJobs sys opts full rel)

/-- Where a thread stands in the directory it reads. -/
inductive Reading where
  /-- It reads none. -/
  | ready
  /-- Before a call of `queue_child`, with the paths still to be queued and the jobs made so far. -/
  | reading (todo : List Bytes) (children : List Job)
  /-- The load has found room for a descriptor. -/
  | opening (rel : Bytes) (todo : List Bytes) (children : List Job)
  /-- `openat` has returned a descriptor, which is not counted yet. -/
  | opened (rel : Bytes) (todo : List Bytes) (children : List Job)
  /-- The descriptor is counted, and its job is still to be pushed. -/
  | counted (rel : Bytes) (todo : List Bytes) (children : List Job)

namespace Reading

/-- The jobs the thread has made, its uncounted descriptor apart. -/
def jobs : Reading → List Job
  | ready => []
  | reading _ children | opening _ _ children | opened _ _ children => children
  | counted rel _ children => children ++ [⟨true, rel⟩]

/-- Whether the thread is between its load and its `fetch_add`. -/
def armed : Reading → ℕ
  | opening .. | opened .. => 1
  | ready | reading .. | counted .. => 0

/-- A thread is between its load and its `fetch_add` at most once. -/
lemma armed_le_one (r : Reading) : r.armed ≤ 1 := by cases r <;> simp [armed]

/-- The thread reads a directory whose calls are these, and has made its jobs by them. -/
def Follows (calls : List Bytes) : Reading → Prop
  | ready => False
  | reading todo children => ∃ done, done ++ todo = calls ∧ QueuedFor sys opts done children
  | opening rel todo children =>
    ∃ done, done ++ rel :: todo = calls ∧ QueuedFor sys opts done children
  | opened rel todo children | counted rel todo children => sys.openAt rel = .ok () ∧
    ∃ done, done ++ rel :: todo = calls ∧ QueuedFor sys opts done children

end Reading

/-- One atomic step of `queue_child`, on the shared counter and the thread's own reading.  What a
thread does to its own buffer after its last shared step belongs to that step. -/
inductive QueueStep (cap : ℕ) : ℤ → Reading → ℤ → Reading → Prop
  /-- The load finds the budget used up. -/
  | full {live : ℤ} {rel : Bytes} {todo : List Bytes} {children : List Job} : cap ≤ live →
      QueueStep cap live (.reading (rel :: todo) children) live
        (.reading todo (children ++ [⟨false, rel⟩]))
  /-- The load finds room. -/
  | room {live : ℤ} {rel : Bytes} {todo : List Bytes} {children : List Job} : live < cap →
      QueueStep cap live (.reading (rel :: todo) children) live (.opening rel todo children)
  /-- `openat` succeeds. -/
  | openat {live : ℤ} {rel : Bytes} {todo : List Bytes} {children : List Job} :
      sys.openAt rel = .ok () →
      QueueStep cap live (.opening rel todo children) live (.opened rel todo children)
  /-- `openat` finds no descriptor left, and the child is queued by its path. -/
  | exhausted {live : ℤ} {rel : Bytes} {todo : List Bytes} {children : List Job} :
      sys.openAt rel = .error .MFILE ∨ sys.openAt rel = .error .NFILE →
      QueueStep cap live (.opening rel todo children) live
        (.reading todo (children ++ [⟨false, rel⟩]))
  /-- `openat` fails otherwise, and nothing is queued. -/
  | settled {live : ℤ} {rel : Bytes} {todo : List Bytes} {children : List Job} {err : Errno} :
      sys.openAt rel = .error err → err ≠ .MFILE → err ≠ .NFILE →
      QueueStep cap live (.opening rel todo children) live (.reading todo children)
  /-- `live_fds.fetch_add(1)`. -/
  | fetchAdd {live : ℤ} {rel : Bytes} {todo : List Bytes} {children : List Job} :
      QueueStep cap live (.opened rel todo children) (live + 1) (.counted rel todo children)
  /-- `children.push(..)`. -/
  | push {live : ℤ} {rel : Bytes} {todo : List Bytes} {children : List Job} :
      QueueStep cap live (.counted rel todo children) live
        (.reading todo (children ++ [⟨true, rel⟩]))

/-- How many jobs carry a descriptor. -/
def fds (jobs : Multiset Job) : ℕ := jobs.countP fun job => job.fd

/-- No jobs have no descriptors. -/
@[simp] lemma fds_zero : fds 0 = 0 := Multiset.countP_zero _

/-- The descriptors of two groups of jobs add up. -/
@[simp] lemma fds_add (jobs jobs' : Multiset Job) : fds (jobs + jobs') = fds jobs + fds jobs' :=
  Multiset.countP_add _ _ _

/-- A job has a descriptor or not. -/
@[simp] lemma fds_singleton (job : Job) : fds {job} = if job.fd then 1 else 0 := by
  rw [fds, Multiset.countP_eq_card_filter, Multiset.filter_singleton]
  split_ifs <;> rfl

/-- The descriptors of two lists of jobs add up. -/
@[simp] lemma fds_append (jobs jobs' : List Job) :
    fds ((jobs ++ jobs' : List Job) : Multiset Job) = fds jobs + fds jobs' := by
  rw [← Multiset.coe_add, fds_add]

/-- Jobs queued by path have no descriptors. -/
lemma fds_paths (rels : List Bytes) :
    fds ((rels.map fun rel => (⟨false, rel⟩ : Job) : List Job) : Multiset Job) = 0 := by
  rw [fds, Multiset.countP_eq_zero]
  simp

namespace QueueStep

variable {wildmatch sys opts} {cap : ℕ} {live live' : ℤ} {r r' : Reading}

/-- A worker that queues something is reading. -/
lemma ne_ready (h : QueueStep sys cap live r live' r') : r ≠ .ready := by
  rintro rfl
  cases h

/-- A worker that has queued something is still reading. -/
lemma ne_ready' (h : QueueStep sys cap live r live' r') : r' ≠ .ready := by
  rintro rfl
  cases h

/-- A step adds to the counter what it adds to the descriptors in jobs. -/
lemma live_add (h : QueueStep sys cap live r live' r') :
    live' + fds r.jobs = live + fds r'.jobs := by
  cases h <;> simp [Reading.jobs, add_assoc, add_comm]

/-- A step arms its thread below the cap, or moves the counter as far as it disarms. -/
lemma armed_cases (h : QueueStep sys cap live r live' r') :
    live < cap ∧ live' = live ∧ r'.armed = 1 ∨ live' + r'.armed ≤ live + r.armed := by
  cases h with
  | room hroom => exact .inl ⟨hroom, rfl, rfl⟩
  | _ => exact .inr (by simp [Reading.armed])

/-- A call of `queue_child` is over. -/
lemma follows_next {calls done todo : List Bytes} {rel : Bytes} {children made : List Job}
    (full : Bool) (hcalls : done ++ rel :: todo = calls) (hdone : QueuedFor sys opts done children)
    (hmade : childJobs sys opts full rel = made) :
    (Reading.reading todo (children ++ made)).Follows sys opts calls :=
  ⟨done ++ [rel], by simpa using hcalls, hmade ▸ hdone.snoc full rel⟩

/-- A worker that queues something goes on with the calls of the directory it reads. -/
lemma follows {calls : List Bytes} (h : QueueStep sys cap live r live' r')
    (hr : r.Follows sys opts calls) : r'.Follows sys opts calls := by
  cases h with
  | full =>
    obtain ⟨done, hcalls, hdone⟩ := hr
    exact follows_next true hcalls hdone rfl
  | room => exact hr
  | openat hopen => exact ⟨hopen, hr⟩
  | exhausted hopen =>
    obtain ⟨done, hcalls, hdone⟩ := hr
    refine follows_next false hcalls hdone ?_
    rcases hopen with hopen | hopen <;> simp [childJobs, queueChild, hopen]
  | @settled rel todo children err hopen hmfile hnfile =>
    obtain ⟨done, hcalls, hdone⟩ := hr
    have hjobs : childJobs sys opts false rel = [] := by
      cases err <;> simp_all [childJobs, queueChild, apply_ite Prod.snd]
    simpa using follows_next false hcalls hdone hjobs
  | fetchAdd => exact hr
  | push =>
    obtain ⟨hopen, done, hcalls, hdone⟩ := hr
    refine follows_next false hcalls hdone ?_
    simp [childJobs, queueChild, hopen]

end QueueStep

/-! ## A walk -/

/-- The state of one root's walk: the calling thread reads the root first, and then the workers take
over.  The counter is an integer, so that an underflow would show. -/
inductive Budget (n : ℕ) where
  /-- The calling thread reads the root. -/
  | seeding (live : ℤ) (caller : Reading)
  /-- The pool runs. -/
  | walking (pool : Pool Job Unit n) (live : ℤ) (readings : Fin n → Reading)

/-- The jobs a worker has in hand: outside `walker.run` those of its phase, and inside, where the
job it runs has been discounted, those it has made so far. -/
def inHand (phase : Phase Job) (r : Reading) : Multiset Job :=
  match r with
  | .ready => phase.held
  | r => r.jobs

namespace Budget

variable {n : ℕ}

/-- The value of `live_fds`. -/
def liveFds : Budget n → ℤ
  | seeding live _ | walking _ live _ => live

/-- How many jobs carry a descriptor, have been counted by their `fetch_add` and have not been
discounted by their taker's `fetch_sub`: in the queues, in the workers' hands and buffers, and in
the calling thread's buffer. -/
def counted : Budget n → ℕ
  | seeding _ caller => fds caller.jobs
  | walking pool _ readings =>
    fds (Pool.queued pool) + ∑ w, fds (inHand (pool.workers w).phase (readings w))

/-- Every worker has returned. -/
def Finished : Budget n → Prop
  | seeding .. => False
  | walking pool _ _ => pool.Finished

/-- `walk_root` starts by reading the root; `walk_subtrees` starts the pool on paths. -/
inductive Initial : Budget n → Prop
  /-- `walk_root_capped`. -/
  | root : Initial (.seeding 0 (.reading (readDirCalls wildmatch sys opts []) []))
  /-- `walk_subtrees`. -/
  | subtrees {rels : List Bytes} : rels ≠ [] →
      Initial (.walking (Pool.start (rels.map fun rel => ⟨false, rel⟩)) 0 fun _ => .ready)

/-- One atomic step.  No job panics. -/
inductive Step (cap : ℕ) : Budget n → Budget n → Prop
  /-- The calling thread moves in `queue_child`. -/
  | seed {live live' : ℤ} {r r' : Reading} : QueueStep sys cap live r live' r' →
      Step cap (.seeding live r) (.seeding live' r')
  /-- `pool::run` starts its workers. -/
  | start {live : ℤ} {seeds : List Job} : seeds ≠ [] →
      Step cap (.seeding live (.reading [] seeds))
        (.walking (Pool.start seeds) live fun _ => .ready)
  /-- A worker takes a job, counts, pushes or retires one, or stops: any step of its loop around
  `walker.run`. -/
  | schedule {p q : Pool Job Unit n} {live : ℤ} {readings : Fin n → Reading} :
      Pool.Step (fun _ _ _ => False) p q → q.Sound →
      Step cap (.walking p live readings) (.walking q live readings)
  /-- `walker.run` begins: the job gives its descriptor back to the budget, if it carries one. -/
  | run {p : Pool Job Unit n} {live : ℤ} {readings : Fin n → Reading} (me : Fin n) {job : Job} :
      (p.workers me).phase = .running job → readings me = .ready →
      Step cap (.walking p live readings) (.walking p (live - if job.fd then 1 else 0)
        (update readings me (.reading (runCalls wildmatch sys opts job) [])))
  /-- A worker moves in `queue_child`. -/
  | queue {p : Pool Job Unit n} {live live' : ℤ} {readings : Fin n → Reading} (me : Fin n)
      {r : Reading} : QueueStep sys cap live (readings me) live' r →
      Step cap (.walking p live readings) (.walking p live' (update readings me r))
  /-- `walker.run` returns. -/
  | finish {p : Pool Job Unit n} {live : ℤ} {readings : Fin n → Reading} (me : Fin n) {job : Job}
      {children : List Job} :
      (p.workers me).phase = .running job → readings me = .reading [] children →
      Step cap (.walking p live readings) (.walking
        { p with workers :=
            update p.workers me ⟨.counting children, (p.workers me).log ++ [(job, ())]⟩ }
        live (update readings me .ready))

/-- The states of a walk. -/
def Reachable (cap : ℕ) (s : Budget n) : Prop :=
  Transition.Reachable (Initial wildmatch sys opts) (Step wildmatch sys opts cap) s

/-! ## The pool behind a walk -/

/-- What a job may do in the pool. -/
def JobQueues (job : Job) (children : List Job) (_ : Unit) : Prop :=
  QueuedFor sys opts (runCalls wildmatch sys opts job) children

/-- What the pool may start on. -/
def Seeds (seeds : List Job) : Prop :=
  QueuedFor sys opts (readDirCalls wildmatch sys opts []) seeds ∨
    ∃ rels : List Bytes, seeds = rels.map fun rel => ⟨false, rel⟩

/-- A worker that reads is inside `walker.run`, and at the calls its job makes. -/
def Attends (pool : Pool Job Unit n) (w : Fin n) (r : Reading) : Prop :=
  r = .ready ∨ ∃ job, (pool.workers w).phase = .running job ∧
    r.Follows sys opts (runCalls wildmatch sys opts job)

/-- The pool is one whose jobs queue as they should, and its workers are at the jobs they run. -/
def Simulates : Budget n → Prop
  | seeding _ caller => caller.Follows sys opts (readDirCalls wildmatch sys opts [])
  | walking pool _ readings =>
    (∃ seeds, Seeds wildmatch sys opts seeds ∧
      Pool.Reachable (JobQueues wildmatch sys opts) seeds pool) ∧
    ∀ w, Attends wildmatch sys opts pool w (readings w)

variable {wildmatch sys opts} {cap : ℕ} {s t : Budget n}

/-- A step of the loop around `walker.run` moves a worker that is outside it, and keeps the jobs
that are queued or in that worker's hands. -/
lemma schedule_cases {p q : Pool Job Unit n} (h : Pool.Step (fun _ _ _ => False) p q)
    (hsound : q.Sound) : ∃ me, ∃ taken given : List Job,
      (∀ job, (p.workers me).phase ≠ .running job) ∧ (∀ v ≠ me, q.workers v = p.workers v) ∧
      Pool.queued q + taken = Pool.queued p + given ∧
      (taken : Multiset Job) + (p.workers me).phase.held =
        (given : Multiset Job) + (q.workers me).phase.held := by
  obtain ⟨me, old, new, taken, given, entry, d, heffect, hold, hworkers, -, hqueued⟩ := h.effect
  have hnew : (q.workers me).phase = new := by rw [hworkers, Function.update_self]
  have hfailed : ¬new.failed := hnew ▸ hsound me
  refine ⟨me, taken, given, ?_, fun v hv => by rw [hworkers, Function.update_of_ne hv], hqueued, ?_⟩
  · intro job hjob
    rw [hold] at hjob
    cases heffect with
    | finish hrun => exact hrun
    | panic => exact hfailed trivial
    | _ => cases hjob
  · rw [hold, hnew]
    cases heffect with
    | finish hrun => exact hrun.elim
    | panic => exact (hfailed trivial).elim
    | unwind => exact (hfailed trivial).elim
    | push child children =>
      exact (zero_add _).trans (Multiset.coe_add [child] children).symm
    | _ => rfl

/-- Attending to a job is a matter of one worker. -/
lemma Attends.of_eq {p q : Pool Job Unit n} {w : Fin n} {r : Reading}
    (h : Attends wildmatch sys opts p w r) (hw : q.workers w = p.workers w) :
    Attends wildmatch sys opts q w r := by
  unfold Attends
  rwa [hw]

/-- Initially nothing is read. -/
lemma Initial.simulates (h : Initial wildmatch sys opts s) : Simulates wildmatch sys opts s := by
  cases h with
  | root => exact ⟨[], rfl, .nil⟩
  | subtrees => exact ⟨⟨_, .inr ⟨_, rfl⟩, Transition.Reachable.initial rfl⟩, fun _ => .inl rfl⟩

/-- A step keeps what is read in step with the pool. -/
lemma Simulates.step (hs : Simulates wildmatch sys opts s)
    (h : Step wildmatch sys opts cap s t) : Simulates wildmatch sys opts t := by
  cases h with
  | seed hstep => exact hstep.follows hs
  | start =>
    obtain ⟨done, hdone, hseeds⟩ := hs
    obtain rfl := (List.append_nil done).symm.trans hdone
    exact ⟨⟨_, .inl hseeds, Transition.Reachable.initial rfl⟩, fun _ => .inl rfl⟩
  | @schedule p q live readings hstep hsound =>
    obtain ⟨⟨seeds, hseeds, hpool⟩, hreadings⟩ := hs
    refine ⟨⟨seeds, hseeds, hpool.tail (hstep.mono fun hrun => hrun.elim)⟩, fun w => ?_⟩
    obtain ⟨me, taken, given, hme, hothers, -⟩ := schedule_cases hstep hsound
    by_cases hw : w = me
    · exact (hreadings w).imp id fun ⟨job, hjob, _⟩ => absurd (hw ▸ hjob) (hme job)
    · exact (hreadings w).of_eq (hothers w hw)
  | @run p live readings me job hph hready =>
    obtain ⟨hpool, hreadings⟩ := hs
    exact ⟨hpool, (Function.forall_update_iff readings (Attends wildmatch sys opts p)).mpr
      ⟨.inr ⟨job, hph, [], rfl, .nil⟩, fun w _ => hreadings w⟩⟩
  | @queue p live live' readings me r hstep =>
    obtain ⟨hpool, hreadings⟩ := hs
    obtain ⟨job, hjob, hfollows⟩ := (hreadings me).resolve_left hstep.ne_ready
    exact ⟨hpool, (Function.forall_update_iff readings (Attends wildmatch sys opts p)).mpr
      ⟨.inr ⟨job, hjob, hstep.follows hfollows⟩, fun w _ => hreadings w⟩⟩
  | @finish p live readings me job children hph hreading =>
    obtain ⟨⟨seeds, hseeds, hpool⟩, hreadings⟩ := hs
    -- The jobs the worker has made are those of all calls of its job.
    have hruns : JobQueues wildmatch sys opts job children () := by
      obtain ⟨job', hjob', hfollows⟩ := (hreadings me).resolve_left (by rw [hreading]; nofun)
      obtain rfl : job' = job := Phase.running.inj (hjob'.symm.trans hph)
      rw [hreading] at hfollows
      obtain ⟨done, hdone, hchildren⟩ := hfollows
      rwa [JobQueues, ← hdone, List.append_nil]
    refine ⟨⟨seeds, hseeds, hpool.tail (.finish me hph hruns)⟩, ?_⟩
    exact (Function.forall_update_iff readings (Attends wildmatch sys opts _)).mpr
      ⟨.inl rfl, fun w hw => (hreadings w).of_eq (Function.update_of_ne hw _ _)⟩

/-- A walk stands in the calling thread's reading of the root, or in a state of the pool. -/
lemma Reachable.simulates (h : Reachable wildmatch sys opts cap s) :
    Simulates wildmatch sys opts s :=
  Transition.Reachable.invariant (fun _ hinit => hinit.simulates)
    (fun _ _ _ hs hstep => hs.step hstep) h

/-! ## The walk it refines -/

/-- A call is about the path of its entry. -/
lemma entCall_eq {rel path : Bytes} {ent : Ent}
    (h : entCall wildmatch sys opts rel ent = some path) : path = joinRel rel ent.name := by
  unfold entCall at h
  split at h
  · dsimp only at h
    split_ifs at h
    exact (Option.some.inj h).symm
  · cases h

/-- Two names in one directory have two paths. -/
lemma joinRel_right_injective (rel : Bytes) : Function.Injective (joinRel rel) := by
  intro name name' h
  unfold joinRel at h
  split_ifs at h
  · exact h
  · simpa using h

/-- A directory that holds each name once has `queue_child` called once for each path. -/
lemma readDirCalls_nodup (hdistinct : ∀ rel, ((sys.readDir rel).1.map Prod.fst).Nodup)
    (rel : Bytes) : (readDirCalls wildmatch sys opts rel).Nodup := by
  have hnames := hdistinct rel
  unfold readDirCalls
  cases sys.dirNew rel with
  | error err => exact .nil
  | ok =>
    rcases hstream : sys.readDir rel with ⟨entries, _ | err⟩
    · cases sys.dirFd rel with
      | error err => exact .nil
      | ok =>
        dsimp only
        split_ifs
        · exact .nil
        · rw [List.Nodup, List.pairwise_filterMap, entryBuf, List.pairwise_map]
          rw [hstream, List.Nodup, List.pairwise_map] at hnames
          refine List.Pairwise.imp ?_ (hnames.filter _)
          intro e e' hne path hpath path' hpath' heq
          rw [entCall_eq hpath, entCall_eq hpath'] at heq
          exact hne (joinRel_right_injective rel heq)
    · exact .nil

/-- A run of a job calls for no path twice. -/
lemma runCalls_nodup (hdistinct : ∀ rel, ((sys.readDir rel).1.map Prod.fst).Nodup) (job : Job) :
    (runCalls wildmatch sys opts job).Nodup := by
  unfold runCalls
  split_ifs
  · exact readDirCalls_nodup hdistinct _
  · split
    · exact readDirCalls_nodup hdistinct _
    · exact .nil

/-- Where no path is queued twice, what the loads find is a predicate on paths. -/
lemma queuedFor_iff {paths : List Bytes} {jobs : List Job} (hnodup : paths.Nodup) :
    QueuedFor sys opts paths jobs ↔ ∃ full : Bytes → Bool,
      jobs = paths.flatMap fun path => childJobs sys opts (full path) path := by
  constructor
  · intro h
    induction h with
    | nil => exact ⟨fun _ => false, rfl⟩
    | @snoc paths jobs answer rel _ ih =>
      obtain ⟨hpaths, -, hdisjoint⟩ := List.nodup_append.mp hnodup
      obtain ⟨full, rfl⟩ := ih hpaths
      refine ⟨update full rel answer, ?_⟩
      have hbefore : ∀ path ∈ paths, update full rel answer path = full path := fun path hpath =>
        Function.update_of_ne (hdisjoint path hpath rel (List.mem_singleton_self rel)) _ _
      rw [List.flatMap_append, List.flatMap_singleton, Function.update_self]
      congr 1
      exact List.flatMap_congr fun path hpath => by rw [hbefore path hpath]
  · rintro ⟨full, rfl⟩
    induction paths using List.reverseRecOn with
    | nil => exact .nil
    | append_singleton paths rel ih =>
      rw [List.flatMap_append, List.flatMap_singleton]
      exact (ih (List.nodup_append.mp hnodup).1).snoc (full rel) rel

/-- The jobs that a worker makes step by step are those of one run of `Walker::run`. -/
lemma jobQueues_iff (hdistinct : ∀ rel, ((sys.readDir rel).1.map Prod.fst).Nodup) {job : Job}
    {children : List Job} : JobQueues wildmatch sys opts job children () ↔
      ∃ out, JobRuns wildmatch sys opts job children out := by
  rw [JobQueues, queuedFor_iff (runCalls_nodup hdistinct job)]
  constructor
  · rintro ⟨full, rfl⟩
    exact ⟨_, full, Prod.ext rfl (run_jobs ..)⟩
  · rintro ⟨out, full, h⟩
    exact ⟨full, by rw [← run_jobs, h]⟩

/-- The interleaved walk refines the walk whose jobs run in one step: its pool is one that
`walk_root` or `walk_subtrees` may start, and its jobs do what `Walker::run` does. -/
theorem Reachable.refines (hdistinct : ∀ rel, ((sys.readDir rel).1.map Prod.fst).Nodup)
    {p : Pool Job Unit n} {live : ℤ} {readings : Fin n → Reading}
    (h : Reachable wildmatch sys opts cap (.walking p live readings)) :
    ∃ seeds : List Job, ((∃ full, seeds = (readDir wildmatch sys opts full []).2) ∨
        ∃ rels : List Bytes, seeds = rels.map fun rel => ⟨false, rel⟩) ∧
      Pool.Reachable (fun job children _ => ∃ out, JobRuns wildmatch sys opts job children out)
        seeds p := by
  obtain ⟨⟨seeds, hseeds, hpool⟩, -⟩ := h.simulates
  refine ⟨seeds, hseeds.imp_left fun hroot => ?_,
    hpool.mono fun hrun => (jobQueues_iff hdistinct).mp hrun⟩
  obtain ⟨full, rfl⟩ := (queuedFor_iff (readDirCalls_nodup hdistinct [])).mp hroot
  exact ⟨full, (readDir_jobs ..).symm⟩

/-! ## The count -/

/-- A worker that reads has in hand what is left of its reading. -/
lemma inHand_of_ne_ready {r : Reading} (h : r ≠ .ready) (phase : Phase Job) :
    inHand phase r = (r.jobs : Multiset Job) := by
  cases r with
  | ready => exact absurd rfl h
  | _ => rfl

/-- The counter is the number of jobs counted and not discounted. -/
def Balanced (s : Budget n) : Prop := s.liveFds = s.counted

/-- A step of one worker keeps the balance if it adds to the counter what it adds to the queues and
to the worker's hands. -/
lemma Balanced.of_step {p q : Pool Job Unit n} {live live' : ℤ}
    {readings readings' : Fin n → Reading} {taken given : Multiset Job}
    (hs : (walking p live readings).Balanced) (me : Fin n)
    (hqueued : Pool.queued q + taken = Pool.queued p + given)
    (hothers : ∀ v, v ≠ me → q.workers v = p.workers v ∧ readings' v = readings v)
    (hlive : live' + (fds taken + fds (inHand (p.workers me).phase (readings me))) =
      live + (fds given + fds (inHand (q.workers me).phase (readings' me)))) :
    (walking q live' readings').Balanced := by
  have hfds := congrArg fds hqueued
  rw [fds_add, fds_add] at hfds
  have hsum := Counter.sum_add_of_ne
    (f := fun v => fds (inHand (p.workers v).phase (readings v)))
    (g := fun v => fds (inHand (q.workers v).phase (readings' v))) me fun v hv => by
      rw [(hothers v hv).1, (hothers v hv).2]
  simp only [Balanced, liveFds, counted] at hs ⊢
  omega

/-- The same for a step that leaves the queues alone. -/
lemma Balanced.of_own {p q : Pool Job Unit n} {live live' : ℤ}
    {readings readings' : Fin n → Reading} (hs : (walking p live readings).Balanced) (me : Fin n)
    (hqueued : Pool.queued q = Pool.queued p)
    (hothers : ∀ v, v ≠ me → q.workers v = p.workers v ∧ readings' v = readings v)
    (hlive : live' + fds (inHand (p.workers me).phase (readings me)) =
      live + fds (inHand (q.workers me).phase (readings' me))) :
    (walking q live' readings').Balanced :=
  hs.of_step me (by rw [hqueued] : Pool.queued q + 0 = Pool.queued p + 0) hothers
    (by simpa using hlive)

/-- What is counted at the start are the descriptors of the seeds. -/
lemma counted_start (seeds : List Job) (live : ℤ) :
    (walking (Pool.start seeds) live fun _ => .ready : Budget n).counted = fds seeds := by
  simp [counted, Pool.start, Pool.queued, inHand, Phase.held]

/-- Initially every descriptor is accounted for. -/
lemma Initial.balanced (h : Initial wildmatch sys opts s) : s.Balanced := by
  cases h with
  | root => rfl
  | subtrees => rw [Balanced, counted_start, fds_paths]; rfl

/-- A step keeps every descriptor accounted for. -/
lemma Balanced.step (hsim : Simulates wildmatch sys opts s) (hs : s.Balanced)
    (h : Step wildmatch sys opts cap s t) : t.Balanced := by
  cases h with
  | seed hstep =>
    have hlive := hstep.live_add
    simp only [Balanced, liveFds, counted] at hs ⊢
    omega
  | start => rw [Balanced, counted_start]; exact hs
  | @schedule p q live readings hstep hsound =>
    obtain ⟨me, taken, given, hme, hothers, hqueued, hheld⟩ := schedule_cases hstep hsound
    -- The worker that moves reads nothing, so its hands hold what its phase says.
    have hready : readings me = .ready :=
      (hsim.2 me).resolve_right fun ⟨job, hjob, _⟩ => hme job hjob
    refine hs.of_step me hqueued (fun v hv => ⟨hothers v hv, rfl⟩) ?_
    have hfds := congrArg fds hheld
    rw [fds_add, fds_add] at hfds
    simp only [hready, inHand]
    omega
  | @run p live readings me job hph hready =>
    refine hs.of_own me rfl (fun v hv => ⟨rfl, Function.update_of_ne hv _ _⟩) ?_
    rw [Function.update_self, hready, hph]
    cases hfd : job.fd <;> simp [inHand, Phase.held, Reading.jobs, hfd]
  | queue me hstep =>
    refine hs.of_own me rfl (fun v hv => ⟨rfl, Function.update_of_ne hv _ _⟩) ?_
    rw [Function.update_self, inHand_of_ne_ready hstep.ne_ready,
      inHand_of_ne_ready hstep.ne_ready']
    exact hstep.live_add
  | @finish p live readings me job children hph hreading =>
    refine hs.of_own me rfl
      (fun v hv => ⟨Function.update_of_ne hv _ _, Function.update_of_ne hv _ _⟩) ?_
    simp [hreading, inHand, Reading.jobs, Phase.held]

/-! ## The bound -/

/-- The soft cap of the walk: the threads that queue are the calling thread, and then the
workers. -/
def Capped (cap : ℕ) : Budget n → Prop
  | seeding live caller => Counter.SoftCap cap live fun _ : Unit => caller.armed
  | walking _ live readings => Counter.SoftCap cap live fun w => (readings w).armed

/-- A step of `queue_child` respects the soft cap of any family of threads. -/
lemma queueStep_softCap {ι : Type} [Fintype ι] [DecidableEq ι] {live live' : ℤ}
    (readings : ι → Reading) {i : ι} {r : Reading}
    (h : Counter.SoftCap cap live fun j => (readings j).armed)
    (hstep : QueueStep sys cap live (readings i) live' r) :
    Counter.SoftCap cap live' fun j => (update readings i r j).armed := by
  have hupdate : (fun j => (update readings i r j).armed) =
      update (fun j => (readings j).armed) i r.armed := Function.comp_update Reading.armed ..
  rw [hupdate]
  rcases hstep.armed_cases with ⟨hroom, rfl, harmed⟩ | hspend
  · rw [harmed]
    exact h.arm hroom i
  · exact h.spend i r.armed_le_one hspend

/-- Initially the descriptors are within the cap. -/
lemma Initial.capped {s : Budget (n + 1)} (h : Initial wildmatch sys opts s) : s.Capped cap := by
  cases h with
  | root => exact .of_le (Int.natCast_nonneg cap) fun _ => rfl
  | subtrees => exact .of_le (Int.natCast_nonneg cap) fun _ => rfl

/-- A step keeps the descriptors within the cap. -/
lemma Capped.step {s t : Budget (n + 1)} (hs : s.Capped cap)
    (h : Step wildmatch sys opts cap s t) : t.Capped cap := by
  -- Only a step of `queue_child` arms a thread; the others leave the counter or lower it.
  have hidle : ∀ {live live' : ℤ} {readings : Fin (n + 1) → Reading} {me r},
      Counter.SoftCap cap live (fun w => (readings w).armed) → live' ≤ live → r.armed = 0 →
      Counter.SoftCap cap live' fun w => (update readings me r w).armed := by
    intro live live' readings me r hcap hlive hr
    have hupdate : (fun w => (update readings me r w).armed) =
        update (fun w => (readings w).armed) me 0 :=
      (Function.comp_update Reading.armed ..).trans (by rw [hr]; rfl)
    rw [hupdate]
    exact hcap.spend me zero_le_one (by push_cast; omega)
  cases h with
  | @seed live live' r r' hstep =>
    -- The calling thread is a family of one.
    exact queueStep_softCap (fun _ : Unit => r) (i := ()) hs hstep
  | start => exact .of_le (by simpa using hs.counter_le) fun _ => rfl
  | schedule => exact hs
  | @run p live readings me job =>
    refine hidle hs ?_ rfl
    split_ifs <;> omega
  | queue me hstep => exact queueStep_softCap _ hs hstep
  | finish => exact hidle hs le_rfl rfl

/-! ## Results -/

/-- A finished walk has nothing in hand or in a queue. -/
lemma counted_of_finished {s : Budget (n + 1)} (h : Reachable wildmatch sys opts cap s)
    (hfinished : s.Finished) : s.counted = 0 := by
  cases s with
  | seeding => exact hfinished.elim
  | walking p live readings =>
    obtain ⟨⟨seeds, -, hpool⟩, hreadings⟩ := h.simulates
    have hpending := hpool.pending_eq_zero n.succ_pos hfinished
    have hhands : ∀ w, inHand (p.workers w).phase (readings w) = 0 := by
      intro w
      have hready : readings w = .ready :=
        (hreadings w).resolve_right fun ⟨job, hjob, _⟩ => by simp [hfinished w] at hjob
      rw [hready, hfinished w]
      rfl
    simp [counted, hhands, (add_eq_zero.mp hpending).1]

/-- In every interleaving of a walk, whatever the kernel answers, the counter is the number of jobs
that carry a descriptor, have been counted and have not been discounted.  It does not underflow, it
stays within one less than the number of workers of the cap, and it is zero when the pool has
finished.  `run` clamps its number of workers to at least one. -/
theorem live_fds_accounted (wildmatch : Bytes → Bytes → Bool) (sys : Sys) (opts : WalkOptions)
    (cap n : ℕ) (s : Budget (n + 1)) (h : Reachable wildmatch sys opts cap s) :
    s.liveFds = s.counted ∧ 0 ≤ s.liveFds ∧ s.liveFds ≤ cap + (n + 1 : ℕ) - 1 ∧
      (s.Finished → s.liveFds = 0) := by
  have hbalanced : s.Balanced ∧ s.Capped cap := by
    refine Transition.Reachable.invariant (P := fun s => s.Balanced ∧ s.Capped cap) ?_ ?_ h
    · exact fun s hs => ⟨hs.balanced, hs.capped⟩
    · exact fun s t hreach hs hstep =>
        ⟨hs.1.step (Reachable.simulates hreach) hstep, hs.2.step hstep⟩
  obtain ⟨hcount, hcapped⟩ := hbalanced
  refine ⟨hcount, by rw [hcount]; exact Int.natCast_nonneg _, ?_, fun hfinished => ?_⟩
  · cases s with
    | seeding live caller =>
      have hle := Counter.SoftCap.counter_le hcapped
      rw [Fintype.card_unit] at hle
      simp only [liveFds]
      push_cast at hle ⊢
      omega
    | walking p live readings =>
      have hle := Counter.SoftCap.counter_le hcapped
      rwa [Fintype.card_fin] at hle
  · rw [hcount, counted_of_finished h hfinished]
    rfl

/-- A root that holds two directories, `a` and `b`, both empty; every call succeeds. -/
def twoDirs : Sys where
  openAt := fun _ => .ok ()
  openPath := fun _ => .ok ()
  dirNew := fun _ => .ok ()
  fstat := fun _ => .error .NOENT
  readDir := fun rel =>
    (if rel = [] then [(ascii ['a'], .directory), (ascii ['b'], .directory)] else [], none)
  dirFd := fun _ => .ok ()
  lstat := fun _ => .error .NOENT
  stat := fun _ _ => .error .NOENT

/-- With a cap of one, `a` is queued with a descriptor and `b` by its path, and two workers read
them at the same time. -/
theorem live_fds_accounted_sample : ∃ s : Budget 2, s.Finished ∧ s.liveFds = 0 := by
  let opts : WalkOptions := ⟨2, [], .openScan, false⟩
  let wildmatch : Bytes → Bytes → Bool := fun _ _ => false
  have hcalls : readDirCalls wildmatch twoDirs opts [] = [ascii ['a'], ascii ['b']] := by decide
  have next : ∀ {s t : Budget 2}, Reachable wildmatch twoDirs opts 1 s →
    Step wildmatch twoDirs opts 1 s t → Reachable wildmatch twoDirs opts 1 t :=
    fun h hstep => h.tail hstep
  have h0 : Reachable wildmatch twoDirs opts 1
      (.seeding 0 (.reading [ascii ['a'], ascii ['b']] []) : Budget 2) :=
    Transition.Reachable.initial (hcalls ▸ .root)
  have h1 := next (next h0 (.seed (.room (by decide)))) (.seed (.openat rfl))
  have h2 := next (next h1 (.seed .fetchAdd)) (.seed .push)
  have h3 := next (next h2 (.seed (.full (by decide)))) (.start (by simp))
  have turn : ∀ {p q : Pool Job Unit 2} {live : ℤ} {readings : Fin 2 → Reading},
      Reachable wildmatch twoDirs opts 1 (.walking p live readings) →
      Pool.Step (fun _ _ _ => False) p q → ¬(q.workers 0).phase.failed →
      ¬(q.workers 1).phase.failed → Reachable wildmatch twoDirs opts 1 (.walking q live readings) :=
    fun h hstep h0 h1 => next h (.schedule hstep (Fin.forall_fin_two.mpr ⟨h0, h1⟩))
  -- each worker takes a job and reads its directory
  have h4 := turn h3 (.stealInjector 0 rfl
    (show _ = ⟨true, ascii ['a']⟩ :: ([] ++ [⟨false, ascii ['b']⟩]) from rfl) .rfl) id id
  have h5 := turn h4 (.stealInjector 1 rfl (show _ = ⟨false, ascii ['b']⟩ :: ([] ++ []) from rfl)
    .rfl) id id
  have h6 := next (next h5 (.run 0 rfl rfl)) (.run 1 rfl rfl)
  have h7 := next (next h6 (.finish 0 rfl rfl)) (.finish 1 rfl rfl)
  have h8 := turn (turn h7 (.count 0 rfl) id id) (.retire 0 rfl) id id
  have h9 := turn (turn h8 (.count 1 rfl) id id) (.retire 1 rfl) id id
  have h10 := turn (turn h9 (.load 0 rfl rfl) id id) (.leave 0 rfl) id id
  have h11 := turn (turn h10 (.load 1 rfl rfl) id id) (.leave 1 rfl) id id
  obtain ⟨-, -, -, hzero⟩ := live_fds_accounted wildmatch twoDirs opts 1 1 _ h11
  refine ⟨_, ?_, hzero ?_⟩
  · exact Fin.forall_fin_two.mpr ⟨rfl, rfl⟩
  · exact Fin.forall_fin_two.mpr ⟨rfl, rfl⟩

end Budget

end

end Scap
