import Mathlib.Algebra.BigOperators.Group.Multiset.Basic
import Scap.Foundations.Counters
import Scap.Foundations.Forest
import Scap.Foundations.Transition
import Scap.Foundations.Worklist

/-!
# The work pool

The work-stealing pool one root is walked on (`src/walk/pool.rs`, `run`, `work`, `find_job`,
`Retire`).  Each worker repeats one loop: take a job from its own deque, the injector or another
worker's deque, run it, count its children into `in_flight`, push them, retire the job; a worker
that found nothing stops once it loads `in_flight = 0`.  These are the atomic steps of `Pool.Step`,
and any worker may take the next one.  A search that finds nothing changes no state, and a worker
may load `in_flight` at any time, so the model has every schedule of the code and some more.
Parking only delays steps and is left out.

What a job does is a relation `runs job children out`, because running one may depend on more than
the job: the descriptor budget decides whether a child carries a descriptor or a path.

The file is built on one lemma, `Step.effect`, which says what a step does as seen by one worker and
by the queues taken together.  The count (`Accounted`), the safety of the termination test
(`Settled`) and the completeness of a finished run (`Tracks`) are each read off its cases.
-/

namespace Scap

open Function (update)
open Counter (sum_update)

/-- Where a worker stands in its loop. -/
inductive Phase (J : Type*) where
  /-- At the top of the loop. -/
  | idle
  /-- `walker.run` is running on the job. -/
  | running (job : J)
  /-- The job has run and produced these children, none of them counted yet. -/
  | counting (children : List J)
  /-- The children are counted and these are still to be pushed. -/
  | pushing (children : List J)
  /-- The job panicked and its `Retire` guard is about to be dropped. -/
  | unwinding
  /-- Loaded `in_flight = 0`. -/
  | leaving
  /-- Returned its output. -/
  | returned
  /-- Its thread ended by a panic. -/
  | panicked

namespace Phase

variable {J : Type*}

/-- Whether a worker in this phase holds a job it has not retired. -/
def unretired : Phase J → ℕ
  | running _ | counting _ | pushing _ | unwinding => 1
  | idle | leaving | returned | panicked => 0

/-- How many counted children a worker in this phase has still to push. -/
def unpushed : Phase J → ℕ
  | pushing children => children.length
  | _ => 0

/-- The jobs a worker in this phase has still to run or to push. -/
def held : Phase J → Multiset J
  | running job => {job}
  | counting children | pushing children => children
  | _ => 0

/-- How many steps a worker in this phase has left before it stops, as far as it can be said without
running another job. -/
def rank : Phase J → ℕ
  | idle | running _ => 3
  | counting children => 2 * children.length + 5
  | pushing children => 2 * children.length + 4
  | leaving => 2
  | returned => 1
  | unwinding | panicked => 0

/-- The worker has found the walk over. -/
def stopped : Phase J → Prop
  | leaving | returned => True
  | _ => False

/-- The worker's job panicked. -/
def failed : Phase J → Prop
  | unwinding | panicked => True
  | _ => False

end Phase

/-- One worker: its phase, and the jobs it has run with what each added to its output. -/
structure Worker (J O : Type*) where
  /-- Where the worker stands in its loop. -/
  phase : Phase J
  /-- The jobs run so far, each with its contribution to the output. -/
  log : List (J × O)

/-- The state the workers share, and the workers. -/
structure Pool (J O : Type*) (n : ℕ) where
  /-- The seed queue. -/
  injector : List J
  /-- Each worker's own deque; its owner pushes and pops at the end, thieves take at the front. -/
  deques : Fin n → List J
  /-- The workers. -/
  workers : Fin n → Worker J O
  /-- The in-flight count, as an integer so that an underflow would show. -/
  inFlight : ℤ

namespace Pool

variable {J O K P : Type} {n : ℕ}

/-- `run` before its workers start: the initial jobs are counted and sit in the injector. -/
def start (initial : List J) : Pool J O n where
  injector := initial
  deques := fun _ => []
  workers := fun _ => ⟨.idle, []⟩
  inFlight := initial.length

/-- Worker `me` moves to a phase. -/
def become (p : Pool J O n) (me : Fin n) (phase : Phase J) : Pool J O n :=
  { p with workers := update p.workers me { p.workers me with phase := phase } }

/-- One atomic step of one worker. -/
inductive Step (runs : J → List J → O → Prop) : Pool J O n → Pool J O n → Prop
  /-- `local.pop()`: the newest job of the worker's own deque. -/
  | popLocal {p : Pool J O n} (me : Fin n) {job : J} {rest : List J} :
      (p.workers me).phase = .idle → p.deques me = rest ++ [job] →
      Step runs p { p.become me (.running job) with deques := update p.deques me rest }
  /-- `injector.steal_batch_and_pop(local)`; the order of the rest of the batch is left open. -/
  | stealInjector {p : Pool J O n} (me : Fin n) {job : J} {batch moved rest : List J} :
      (p.workers me).phase = .idle → p.injector = job :: (batch ++ rest) → moved.Perm batch →
      Step runs p { p.become me (.running job) with
        injector := rest
        deques := update p.deques me (p.deques me ++ moved) }
  /-- `stealer.steal_batch_and_pop(local)`: the oldest jobs of another worker's deque.  Which of
  them is returned and in what order the others arrive is left open. -/
  | stealWorker {p : Pool J O n} (me victim : Fin n) {job : J} {batch moved rest : List J} :
      victim ≠ me → (p.workers me).phase = .idle → p.deques victim = batch ++ rest →
      batch.Perm (job :: moved) →
      Step runs p { p.become me (.running job) with
        deques := update (update p.deques victim rest) me (p.deques me ++ moved) }
  /-- `walker.run` returns: the job's output is in the worker's, its children are in the buffer. -/
  | finish {p : Pool J O n} (me : Fin n) {job : J} {children : List J} {out : O} :
      (p.workers me).phase = .running job → runs job children out →
      Step runs p { p with
        workers := update p.workers me ⟨.counting children, (p.workers me).log ++ [(job, out)]⟩ }
  /-- `walker.run` panics; the children it had produced are lost. -/
  | panic {p : Pool J O n} (me : Fin n) {job : J} :
      (p.workers me).phase = .running job → Step runs p (p.become me .unwinding)
  /-- `in_flight.fetch_add(children.len())`; adding an empty list's length is skipping the call. -/
  | count {p : Pool J O n} (me : Fin n) {children : List J} :
      (p.workers me).phase = .counting children →
      Step runs p { p.become me (.pushing children) with
        inFlight := p.inFlight + children.length }
  /-- `local.push(child)`. -/
  | push {p : Pool J O n} (me : Fin n) {child : J} {children : List J} :
      (p.workers me).phase = .pushing (child :: children) →
      Step runs p { p.become me (.pushing children) with
        deques := update p.deques me (p.deques me ++ [child]) }
  /-- The `Retire` guard is dropped at the end of the iteration. -/
  | retire {p : Pool J O n} (me : Fin n) :
      (p.workers me).phase = .pushing [] →
      Step runs p { p.become me .idle with inFlight := p.inFlight - 1 }
  /-- The `Retire` guard is dropped while unwinding. -/
  | unwind {p : Pool J O n} (me : Fin n) :
      (p.workers me).phase = .unwinding →
      Step runs p { p.become me .panicked with inFlight := p.inFlight - 1 }
  /-- The load that finds the walk over. -/
  | load {p : Pool J O n} (me : Fin n) :
      (p.workers me).phase = .idle → p.inFlight = 0 → Step runs p (p.become me .leaving)
  /-- `return walker.into_out()`. -/
  | leave {p : Pool J O n} (me : Fin n) :
      (p.workers me).phase = .leaving → Step runs p (p.become me .returned)

/-- The states of a run on the given initial jobs. -/
def Reachable (runs : J → List J → O → Prop) (initial : List J) (p : Pool J O n) : Prop :=
  Transition.Reachable (· = start initial) (Step runs) p

/-- Every worker has returned its output. -/
def Finished (p : Pool J O n) : Prop := ∀ w, (p.workers w).phase = .returned

/-- What `run` returns once its workers are joined, each worker's output in worker order. -/
def merged (p : Pool J O n) : List O :=
  (List.finRange n).flatMap fun w => (p.workers w).log.map Prod.snd

/-- The jobs run, worker by worker. -/
def ran (p : Pool J O n) : List J :=
  (List.finRange n).flatMap fun w => (p.workers w).log.map Prod.fst

/-! ## What a step does -/

/-- A step as one worker and the queues taken together see it: the worker's phase before and after,
the jobs the queues lose and gain, what the worker's log gains, and the change of `in_flight`. -/
inductive Effect (runs : J → List J → O → Prop) (inFlight : ℤ) :
    Phase J → Phase J → List J → List J → List (J × O) → ℤ → Prop
  /-- A job is taken from some queue. -/
  | take (job : J) : Effect runs inFlight .idle (.running job) [job] [] [] 0
  /-- The job has run. -/
  | finish {job : J} {children : List J} {out : O} (h : runs job children out) :
      Effect runs inFlight (.running job) (.counting children) [] [] [(job, out)] 0
  /-- The job panicked. -/
  | panic (job : J) : Effect runs inFlight (.running job) .unwinding [] [] [] 0
  /-- The children are counted. -/
  | count (children : List J) :
      Effect runs inFlight (.counting children) (.pushing children) [] [] [] children.length
  /-- One child is pushed. -/
  | push (child : J) (children : List J) :
      Effect runs inFlight (.pushing (child :: children)) (.pushing children) [] [child] [] 0
  /-- The job is retired. -/
  | retire : Effect runs inFlight (.pushing []) .idle [] [] [] (-1)
  /-- The panicked job is retired. -/
  | unwind : Effect runs inFlight .unwinding .panicked [] [] [] (-1)
  /-- The walk is found to be over. -/
  | load (h : inFlight = 0) : Effect runs inFlight .idle .leaving [] [] [] 0
  /-- The worker returns. -/
  | leave : Effect runs inFlight .leaving .returned [] [] [] 0

/-- The jobs in all queues. -/
def queued (p : Pool J O n) : Multiset J :=
  (p.injector : Multiset J) + ∑ w, (p.deques w : Multiset J)

/-- Every step is an effect on one worker, and moves jobs between the queues as the effect says. -/
lemma Step.effect {runs : J → List J → O → Prop} {p q : Pool J O n} (h : Step runs p q) :
    ∃ me old new taken given entry d, Effect runs p.inFlight old new taken given entry d ∧
      (p.workers me).phase = old ∧
      q.workers = update p.workers me ⟨new, (p.workers me).log ++ entry⟩ ∧
      q.inFlight = p.inFlight + d ∧
      queued q + (taken : Multiset J) = queued p + (given : Multiset J) := by
  classical
  -- Only a take and a push touch a queue; there the equation is compared job by job.
  cases h with
  | @popLocal me job rest hph hq =>
    refine ⟨me, _, _, _, _, _, _, .take job, hph, by simp [become], by simp [become], ?_⟩
    refine Multiset.ext.mpr fun j => ?_
    have hsum := congrArg (Multiset.count j)
      (sum_update p.deques (fun js => (js : Multiset J)) me rest)
    rw [hq, ← Multiset.coe_add] at hsum
    simp only [Multiset.count_add] at hsum
    simp only [queued, become, Multiset.count_add, Multiset.coe_nil, Multiset.count_zero]
    omega
  | @stealInjector me job batch moved rest hph hq hmoved =>
    refine ⟨me, _, _, _, _, _, _, .take job, hph, by simp [become], by simp [become], ?_⟩
    refine Multiset.ext.mpr fun j => ?_
    have hsum := congrArg (Multiset.count j)
      (sum_update p.deques (fun js => (js : Multiset J)) me (p.deques me ++ moved))
    rw [← Multiset.coe_add, Multiset.coe_eq_coe.mpr hmoved] at hsum
    have hinjector := congrArg (fun js : List J => Multiset.count j (js : Multiset J)) hq
    rw [← List.singleton_append, ← Multiset.coe_add, ← Multiset.coe_add] at hinjector
    simp only [Multiset.count_add] at hsum hinjector
    simp only [queued, Multiset.count_add, Multiset.coe_nil, Multiset.count_zero]
    omega
  | @stealWorker me victim job batch moved rest hne hph hq hmoved =>
    refine ⟨me, _, _, _, _, _, _, .take job, hph, by simp [become], by simp [become], ?_⟩
    refine Multiset.ext.mpr fun j => ?_
    have hmine := congrArg (Multiset.count j) (sum_update (update p.deques victim rest)
      (fun js => (js : Multiset J)) me (p.deques me ++ moved))
    have hvictim := congrArg (Multiset.count j)
      (sum_update p.deques (fun js => (js : Multiset J)) victim rest)
    rw [Function.update_of_ne hne.symm, ← Multiset.coe_add] at hmine
    rw [hq, ← Multiset.coe_add, Multiset.coe_eq_coe.mpr hmoved, ← List.singleton_append,
      ← Multiset.coe_add] at hvictim
    simp only [Multiset.count_add] at hmine hvictim
    simp only [queued, become, Multiset.count_add, Multiset.coe_nil, Multiset.count_zero]
    omega
  | @finish me job children out hph hruns =>
    exact ⟨me, _, _, _, _, _, _, .finish hruns, hph, rfl, by simp, rfl⟩
  | @panic me job hph =>
    exact ⟨me, _, _, _, _, _, _, .panic job, hph, by simp [become], by simp [become], rfl⟩
  | @count me children hph =>
    exact ⟨me, _, _, _, _, _, _, .count children, hph, by simp [become], rfl, rfl⟩
  | @push me child children hph =>
    refine ⟨me, _, _, _, _, _, _, .push child children, hph, by simp [become], by simp [become],
      ?_⟩
    refine Multiset.ext.mpr fun j => ?_
    have hsum := congrArg (Multiset.count j)
      (sum_update p.deques (fun js => (js : Multiset J)) me (p.deques me ++ [child]))
    rw [← Multiset.coe_add] at hsum
    simp only [Multiset.count_add] at hsum
    simp only [queued, become, Multiset.count_add, Multiset.coe_nil, Multiset.count_zero]
    omega
  | @retire me hph =>
    exact ⟨me, _, _, _, _, _, _, .retire, hph, by simp [become], rfl, rfl⟩
  | @unwind me hph =>
    exact ⟨me, _, _, _, _, _, _, .unwind, hph, by simp [become], rfl, rfl⟩
  | @load me hph hzero =>
    exact ⟨me, _, _, _, _, _, _, .load hzero, hph, by simp [become], by simp [become], rfl⟩
  | @leave me hph =>
    exact ⟨me, _, _, _, _, _, _, .leave, hph, by simp [become], by simp [become], rfl⟩

/-- A step is one of every pool whose jobs may do more. -/
lemma Step.mono {runs runs' : J → List J → O → Prop} {p q : Pool J O n}
    (hruns : ∀ {job children out}, runs job children out → runs' job children out)
    (h : Step runs p q) : Step runs' p q := by
  cases h with
  | popLocal me hph hq => exact .popLocal me hph hq
  | stealInjector me hph hq hmoved => exact .stealInjector me hph hq hmoved
  | stealWorker me victim hne hph hq hmoved => exact .stealWorker me victim hne hph hq hmoved
  | finish me hph hrun => exact .finish me hph (hruns hrun)
  | panic me hph => exact .panic me hph
  | count me hph => exact .count me hph
  | push me hph => exact .push me hph
  | retire me hph => exact .retire me hph
  | unwind me hph => exact .unwind me hph
  | load me hph hzero => exact .load me hph hzero
  | leave me hph => exact .leave me hph

/-- A run with some results is a run with more possible ones. -/
lemma Reachable.mono {runs runs' : J → List J → O → Prop} {initial : List J} {p : Pool J O n}
    (hruns : ∀ {job children out}, runs job children out → runs' job children out)
    (h : Reachable runs initial p) : Reachable runs' initial p := by
  obtain ⟨p₀, hp₀, hrun⟩ := h
  exact ⟨p₀, hp₀, Relation.ReflTransGen.mono (fun _ _ hstep => hstep.mono hruns) _ _ hrun⟩

/-! ## The count -/

/-- `in_flight` is the number of queued jobs, of jobs taken and not retired, and of children counted
and not pushed. -/
def Accounted (p : Pool J O n) : Prop :=
  p.inFlight = (queued p).card + ∑ w, (p.workers w).phase.unretired +
    ∑ w, (p.workers w).phase.unpushed

/-- A worker that stops does so only when nothing is in flight. -/
def Settled (p : Pool J O n) : Prop := ∀ w, (p.workers w).phase.stopped → p.inFlight = 0

/-- Nothing is queued, and no worker holds a job or a child of one. -/
def Quiet (p : Pool J O n) : Prop :=
  queued p = 0 ∧ ∀ w, (p.workers w).phase.unretired = 0

/-- The seeds are counted at the start. -/
lemma accounted_start (initial : List J) : Accounted (start initial : Pool J O n) := by
  simp [Accounted, start, queued, Phase.unretired, Phase.unpushed]

/-- Nobody has stopped at the start. -/
lemma settled_start (initial : List J) : Settled (start initial : Pool J O n) :=
  fun _ h => h.elim

/-- What a phase change does to the sum of a weight of phases. -/
lemma sum_phase {p q : Pool J O n} {me : Fin n} {w : Worker J O} (g : Phase J → ℕ)
    (h : q.workers = update p.workers me w) :
    ∑ v, g (q.workers v).phase + g (p.workers me).phase =
      ∑ v, g (p.workers v).phase + g w.phase := by
  rw [h]
  exact sum_update p.workers (fun v => g v.phase) me w

/-- A step keeps the count. -/
lemma Accounted.step {runs : J → List J → O → Prop} {p q : Pool J O n} (hp : Accounted p)
    (h : Step runs p q) : Accounted q := by
  obtain ⟨me, old, new, taken, given, entry, d, heffect, hold, hworkers, hcount, hqueued⟩ :=
      h.effect
  have hunretired := sum_phase Phase.unretired hworkers
  have hunpushed := sum_phase Phase.unpushed hworkers
  have hcard := congrArg Multiset.card hqueued
  rw [hold] at hunretired hunpushed
  simp only [Multiset.card_add, Multiset.coe_card] at hcard
  unfold Accounted at hp ⊢
  cases heffect <;>
    simp only [Phase.unretired, Phase.unpushed, List.length_cons, List.length_nil] at * <;> omega

/-- When nothing is in flight, nothing is queued or held. -/
lemma Accounted.quiet {p : Pool J O n} (hp : Accounted p) (h : p.inFlight = 0) : Quiet p := by
  unfold Accounted at hp
  have hcard : (queued p).card = 0 := by omega
  have hsum : ∑ w, (p.workers w).phase.unretired = 0 := by omega
  exact ⟨Multiset.card_eq_zero.mp hcard, fun w => Finset.sum_eq_zero_iff.mp hsum w (by simp)⟩

/-- A step makes a worker stop only when nothing is in flight. -/
lemma Settled.step {runs : J → List J → O → Prop} {p q : Pool J O n} (hacc : Accounted p)
    (hp : Settled p) (h : Step runs p q) : Settled q := by
  obtain ⟨me, old, new, taken, given, entry, d, heffect, hold, hworkers, hcount, hqueued⟩ :=
      h.effect
  intro w hw
  rw [hworkers] at hw
  rcases eq_or_ne w me with rfl | hne
  · -- The worker that moved: it has just loaded zero, or was leaving already.
    rw [Function.update_self] at hw
    cases heffect with
    | load hzero => rw [hcount, hzero, add_zero]
    | leave => rw [hcount, hp w (by simp [hold, Phase.stopped]), add_zero]
    | _ => exact hw.elim
  · -- Another worker had stopped, so no other job was there to work on.
    rw [Function.update_of_ne hne] at hw
    have hzero := hp w hw
    have hfree := (hacc.quiet hzero).2 me
    rw [hold] at hfree
    cases heffect with
    | take => rw [hcount, hzero, add_zero]
    | load => rw [hcount, hzero, add_zero]
    | leave => rw [hcount, hzero, add_zero]
    | _ => exact absurd hfree one_ne_zero

variable {runs : J → List J → O → Prop} {initial : List J}

/-- In every reachable state the count is right and whoever has stopped did so at zero. -/
lemma Reachable.accounted {p : Pool J O n} (h : Reachable runs initial p) :
    Accounted p ∧ Settled p := by
  refine Transition.Reachable.invariant (P := fun p => Accounted p ∧ Settled p) ?_ ?_ h
  · rintro _ rfl
    exact ⟨accounted_start initial, settled_start initial⟩
  · exact fun p q _ hp hstep => ⟨hp.1.step hstep, hp.2.step hp.1 hstep⟩

/-! ## The walk -/

/-- The jobs still to be run: the queued ones and those the workers hold. -/
def pending (p : Pool J O n) : Multiset J :=
  queued p + ∑ w, (p.workers w).phase.held

/-- All log entries, of all workers. -/
def logged (p : Pool J O n) : Multiset (J × O) :=
  ∑ w, ((p.workers w).log : Multiset (J × O))

/-- Unless a job has panicked, the nodes of the jobs run so far and the unfolding of those still to
be run are together the nodes `visited`. -/
def Tracks (key : J → K) (child : K → List K) (visited : Multiset K) (p : Pool J O n) : Prop :=
  (∃ w, (p.workers w).phase.failed) ∨ ∃ later, MUnfolds child ((pending p).map key) later ∧
    visited = (logged p).map (key ∘ Prod.fst) + later

/-- At the start all nodes are still to come. -/
lemma tracks_start {key : J → K} {child : K → List K} {visited : List K}
    (h : Unfolds child (initial.map key) visited) :
    Tracks key child visited (start initial : Pool J O n) := by
  refine .inr ⟨visited, ?_, ?_⟩
  · simpa [pending, queued, start, Phase.held] using MUnfolds.of_unfolds h
  · simp [logged, start]

/-- How a step changes the pending jobs. -/
lemma pending_step {p q : Pool J O n} {me : Fin n} {w : Worker J O} {taken given : List J}
    (hworkers : q.workers = update p.workers me w)
    (hqueued : queued q + (taken : Multiset J) = queued p + (given : Multiset J)) :
    pending q + ((taken : Multiset J) + (p.workers me).phase.held) =
      pending p + ((given : Multiset J) + w.phase.held) := by
  have hheld := sum_update p.workers (fun w => w.phase.held) me w
  rw [← hworkers] at hheld
  unfold pending
  rw [add_add_add_comm, hqueued, hheld, add_add_add_comm]

/-- How a step changes the log. -/
lemma logged_step {p q : Pool J O n} {me : Fin n} {phase : Phase J} {entry : List (J × O)}
    (hworkers : q.workers = update p.workers me ⟨phase, (p.workers me).log ++ entry⟩) :
    logged q = logged p + (entry : Multiset (J × O)) := by
  have hlog := sum_update p.workers (fun w => (w.log : Multiset (J × O))) me
    ⟨phase, (p.workers me).log ++ entry⟩
  rw [← hworkers, ← Multiset.coe_add, add_comm (((p.workers me).log : Multiset (J × O))),
    ← add_assoc] at hlog
  exact add_right_cancel hlog

/-- A failed worker never runs again. -/
lemma Step.failed {p q : Pool J O n} (h : Step runs p q) {w : Fin n}
    (hw : (p.workers w).phase.failed) : (q.workers w).phase.failed := by
  obtain ⟨me, old, new, taken, given, entry, d, heffect, hold, hworkers, -, -⟩ := h.effect
  rw [hworkers]
  rcases eq_or_ne w me with rfl | hne
  · rw [Function.update_self]
    rw [hold] at hw
    cases heffect with
    | unwind => trivial
    | _ => exact hw.elim
  · rwa [Function.update_of_ne hne]

/-- What one step does to the pending jobs: the job that has run is replaced by its children, and
any other step keeps them, unless a job has panicked. -/
lemma Step.pending_cases {p q : Pool J O n} (h : Step runs p q) :
    (∃ w, (q.workers w).phase.failed) ∨
      (pending q = pending p ∧ logged q = logged p ∧
        (∑ w, (q.workers w).phase.rank) + (queued q).card <
          (∑ w, (p.workers w).phase.rank) + (queued p).card) ∨
      ∃ job children out others, runs job children out ∧ pending p = job ::ₘ others ∧
        pending q = (children : Multiset J) + others ∧ logged q = logged p + {(job, out)} := by
  obtain ⟨me, old, new, taken, given, entry, d, heffect, hold, hworkers, -, hqueued⟩ := h.effect
  have hpending := pending_step hworkers hqueued
  have hlogged := logged_step hworkers
  have hrank := sum_phase Phase.rank hworkers
  have hcard := congrArg Multiset.card hqueued
  rw [hold] at hpending hrank
  simp only [Multiset.card_add, Multiset.coe_card] at hcard
  -- A step that runs nothing only moves jobs about.
  have hmoves : (taken : Multiset J) + old.held = (given : Multiset J) + new.held → entry = [] →
      pending q = pending p ∧ logged q = logged p := by
    intro hjobs hentry
    rw [hjobs] at hpending
    rw [hentry, Multiset.coe_nil, add_zero] at hlogged
    exact ⟨add_right_cancel hpending, hlogged⟩
  have hfailed : new.failed → ∃ w, (q.workers w).phase.failed := fun hnew =>
    ⟨me, by rwa [hworkers, Function.update_self]⟩
  cases heffect with
  | @finish job children out hrun =>
    -- The job was pending, and its children take its place.
    obtain ⟨others, hothers⟩ : ∃ others, pending p = job ::ₘ others := by
      refine Multiset.exists_cons_of_mem ?_
      have hmem : job ∈ ∑ w, (p.workers w).phase.held :=
        Multiset.mem_sum.mpr ⟨me, by simp, by simp [hold, Phase.held]⟩
      exact Multiset.mem_add.mpr (.inr hmem)
    refine .inr (.inr ⟨job, children, out, others, hrun, hothers, ?_, hlogged⟩)
    refine add_right_cancel (b := ({job} : Multiset J)) ?_
    simpa [Phase.held, hothers, ← Multiset.singleton_add, add_comm, add_left_comm, add_assoc]
      using hpending
  | panic => exact .inl (hfailed trivial)
  | unwind => exact .inl (hfailed trivial)
  | take job =>
    obtain ⟨hmoved, hlog⟩ := hmoves (by simp [Phase.held]) rfl
    refine .inr (.inl ⟨hmoved, hlog, ?_⟩)
    simp only [Phase.rank, List.length_cons, List.length_nil] at *
    omega
  | count children =>
    obtain ⟨hmoved, hlog⟩ := hmoves rfl rfl
    refine .inr (.inl ⟨hmoved, hlog, ?_⟩)
    simp only [Phase.rank, List.length_nil] at *
    omega
  | push child children =>
    obtain ⟨hmoved, hlog⟩ := hmoves (by simp [Phase.held]) rfl
    refine .inr (.inl ⟨hmoved, hlog, ?_⟩)
    simp only [Phase.rank, List.length_cons, List.length_nil] at *
    omega
  | _ =>
    obtain ⟨hmoved, hlog⟩ := hmoves rfl rfl
    refine .inr (.inl ⟨hmoved, hlog, ?_⟩)
    simp only [Phase.rank, List.length_nil] at *
    omega

/-- What one step does to the unfolding of the pending jobs. -/
lemma Step.unfolds {key : J → K} {child : K → List K} {later : Multiset K} {p q : Pool J O n}
    (hruns : ∀ {job children out}, runs job children out → children.map key = child (key job))
    (h : Step runs p q) (hlater : MUnfolds child ((pending p).map key) later) :
    (∃ w, (q.workers w).phase.failed) ∨
      (MUnfolds child ((pending q).map key) later ∧ logged q = logged p ∧
        (∑ w, (q.workers w).phase.rank) + (queued q).card <
          (∑ w, (p.workers w).phase.rank) + (queued p).card) ∨
      ∃ e rest, MUnfolds child ((pending q).map key) rest ∧ later = key e.1 ::ₘ rest ∧
        logged q = logged p + {e} := by
  rcases h.pending_cases with hfailed | ⟨hpending, hlogged, hlt⟩ |
    ⟨job, children, out, others, hrun, hothers, hq, hlogged⟩
  · exact .inl hfailed
  · exact .inr (.inl ⟨by rwa [hpending], hlogged, hlt⟩)
  · rw [hothers, Multiset.map_cons] at hlater
    obtain ⟨rest, hrest, rfl⟩ := hlater.visit
    refine .inr (.inr ⟨(job, out), rest, ?_, rfl, hlogged⟩)
    rwa [hq, Multiset.map_add, Multiset.map_coe, hruns hrun]

/-- A step moves a node at most from what is still to come to what has been run. -/
lemma Tracks.step {key : J → K} {child : K → List K} {visited : Multiset K} {p q : Pool J O n}
    (hruns : ∀ {job children out}, runs job children out → children.map key = child (key job))
    (hp : Tracks key child visited p) (h : Step runs p q) : Tracks key child visited q := by
  rcases hp with ⟨w, hw⟩ | ⟨later, hlater, hvisited⟩
  · exact .inl ⟨w, h.failed hw⟩
  · rcases h.unfolds hruns hlater with hfailed | ⟨hmoved, hlog, -⟩ | ⟨e, rest, hrest, rfl, hlog⟩
    · exact .inl hfailed
    · exact .inr ⟨later, hmoved, by rwa [hlog]⟩
    · refine .inr ⟨rest, hrest, ?_⟩
      rw [hvisited, hlog, Multiset.map_add, add_assoc]
      rfl

/-- The log only holds what jobs really produced. -/
def Genuine (runs : J → List J → O → Prop) (p : Pool J O n) : Prop :=
  ∀ e ∈ logged p, ∃ children, runs e.1 children e.2

/-- A step logs only what a job produced. -/
lemma Genuine.step {p q : Pool J O n} (hp : Genuine runs p) (h : Step runs p q) :
    Genuine runs q := by
  obtain ⟨me, old, new, taken, given, entry, d, heffect, -, hworkers, -, -⟩ := h.effect
  intro e he
  rw [logged_step hworkers, Multiset.mem_add] at he
  rcases he with he | he
  · exact hp e he
  · cases heffect with
    | finish hrun =>
      obtain rfl : e = _ := by simpa using he
      exact ⟨_, hrun⟩
    | _ => simp at he

/-- In every run the log is genuine, and the nodes run and those to come are all the nodes. -/
lemma Reachable.tracks {key : J → K} {child : K → List K} {visited : List K} {p : Pool J O n}
    (hruns : ∀ {job children out}, runs job children out → children.map key = child (key job))
    (hvisited : Unfolds child (initial.map key) visited) (h : Reachable runs initial p) :
    Genuine runs p ∧ Tracks key child visited p := by
  refine Transition.Reachable.invariant
    (P := fun p => Genuine runs p ∧ Tracks key child visited p) ?_ ?_ h
  · rintro _ rfl
    exact ⟨by simp [Genuine, logged, start], tracks_start hvisited⟩
  · exact fun p q _ hp hstep => ⟨hp.1.step hstep, hp.2.step hruns hstep⟩

/-- A finished pool has nothing left to run. -/
lemma Reachable.pending_eq_zero {p : Pool J O n} (h : Reachable runs initial p) (hn : 0 < n)
    (hfinished : Finished p) : pending p = 0 := by
  obtain ⟨hacc, hsettled⟩ := h.accounted
  have hstopped : (p.workers ⟨0, hn⟩).phase.stopped := by rw [hfinished]; trivial
  have hquiet := hacc.quiet (hsettled _ hstopped)
  simp [pending, hquiet.1, hfinished _, Phase.held]

/-- A finished pool has run every node of the unfolding, each exactly once. -/
theorem Reachable.complete {key : J → K} {child : K → List K} {visited : List K} {p : Pool J O n}
    (hruns : ∀ {job children out}, runs job children out → children.map key = child (key job))
    (hvisited : Unfolds child (initial.map key) visited) (h : Reachable runs initial p)
    (hn : 0 < n) (hfinished : Finished p) :
    (logged p).map (key ∘ Prod.fst) = (visited : Multiset K) := by
  obtain ⟨-, htracks⟩ := h.tracks hruns hvisited
  rcases htracks with ⟨w, hw⟩ | ⟨later, hlater, htotal⟩
  · rw [hfinished w] at hw
    exact hw.elim
  · rw [h.pending_eq_zero hn hfinished, Multiset.map_zero] at hlater
    rw [htotal, hlater.eq_zero, add_zero]

/-! ## The sequential run -/

/-- Unless a job has panicked, the jobs run so far begin a sequential run that any sequential run of
the pending jobs completes. -/
def Drained (runs : J → List J → O → Prop) (initial : List J) (p : Pool J O n) : Prop :=
  (∃ w, (p.workers w).phase.failed) ∨ ∃ done : List (J × O), (done : Multiset (J × O)) = logged p ∧
    ∀ later, Drains runs (pending p) later → Drains runs (initial : Multiset J) (done ++ later)

/-- At the start nothing has been run. -/
lemma drained_start (initial : List J) : Drained runs initial (start initial : Pool J O n) := by
  refine .inr ⟨[], by simp [logged, start], fun later hlater => ?_⟩
  simpa [pending, queued, start, Phase.held] using hlater

/-- A step adds at most one job to the sequential run. -/
lemma Drained.step {p q : Pool J O n} (hp : Drained runs initial p) (h : Step runs p q) :
    Drained runs initial q := by
  rcases hp with ⟨w, hw⟩ | ⟨done, hdone, hdrains⟩
  · exact .inl ⟨w, h.failed hw⟩
  · rcases h.pending_cases with hfailed | ⟨hpending, hlogged, -⟩ |
      ⟨job, children, out, others, hrun, hothers, hq, hlogged⟩
    · exact .inl hfailed
    · exact .inr ⟨done, by rw [hlogged, hdone], by rwa [hpending]⟩
    · refine .inr ⟨done ++ [(job, out)], ?_, fun later hlater => ?_⟩
      · rw [hlogged, ← hdone, ← Multiset.coe_singleton, Multiset.coe_add]
      · rw [hq] at hlater
        have := hdrains ((job, out) :: later) (by rw [hothers]; exact .cons hrun hlater)
        simpa using this

/-- A finished pool has done what some sequential run does. -/
theorem Reachable.drains {p : Pool J O n} (h : Reachable runs initial p) (hn : 0 < n)
    (hfinished : Finished p) :
    ∃ log : List (J × O), (log : Multiset (J × O)) = logged p ∧
      Drains runs (initial : Multiset J) log := by
  have hdrained : Drained runs initial p := by
    refine Transition.Reachable.invariant (P := Drained runs initial) ?_ ?_ h
    · rintro _ rfl
      exact drained_start initial
    · exact fun p q _ hp hstep => hp.step hstep
  rcases hdrained with ⟨w, hw⟩ | ⟨done, hdone, hdrains⟩
  · rw [hfinished w] at hw
    exact hw.elim
  · refine ⟨done, hdone, ?_⟩
    simpa using hdrains [] (by rw [h.pending_eq_zero hn hfinished]; exact .nil)

/-! ## Progress -/

/-- No job has panicked. -/
def Sound (p : Pool J O n) : Prop := ∀ w, ¬(p.workers w).phase.failed

/-- A pool that is not finished and in which no job has panicked can take a step without a panic. -/
lemma exists_step (htotal : ∀ job, ∃ children out, runs job children out) {p : Pool J O n}
    (hacc : Accounted p) (hsound : Sound p) (hunfinished : ¬Finished p) :
    ∃ q, Step runs p q ∧ Sound q := by
  -- The worker that moves takes on a phase that has not failed.
  have hmove : ∀ {q : Pool J O n} {me : Fin n} {w : Worker J O}, ¬w.phase.failed →
      q.workers = update p.workers me w → Sound q := by
    intro q me w hw hq
    rw [Sound, hq]
    exact (Function.forall_update_iff p.workers fun _ w => ¬w.phase.failed).mpr
      ⟨hw, fun v _ => hsound v⟩
  have hbecome : ∀ {q : Pool J O n} {me : Fin n} {phase : Phase J}, ¬phase.failed →
      q.workers = (p.become me phase).workers → Sound q := fun hphase hq => hmove hphase hq
  by_cases hidle : ∀ w, (p.workers w).phase = .idle ∨ (p.workers w).phase = .returned
  · obtain ⟨me, hme⟩ := not_forall.mp hunfinished
    have hme := (hidle me).resolve_right hme
    have hnone : ∀ w, (p.workers w).phase.unretired = 0 ∧ (p.workers w).phase.unpushed = 0 := by
      intro w
      rcases hidle w with h | h <;> simp [h, Phase.unretired, Phase.unpushed]
    have hqueued : p.inFlight = (queued p).card := by
      rw [hacc]
      simp [hnone]
    by_cases hempty : queued p = 0
    · exact ⟨_, .load me hme (by rw [hqueued, hempty]; rfl), hbecome (by simp [Phase.failed]) rfl⟩
    · by_cases hlocal : p.deques me = []
      · cases hinjector : p.injector with
        | cons job rest =>
          exact ⟨_, .stealInjector me hme (show _ = job :: ([] ++ rest) from hinjector) .rfl,
            hbecome (by simp [Phase.failed]) rfl⟩
        | nil =>
          obtain ⟨victim, hvictim⟩ : ∃ victim, p.deques victim ≠ [] := by
            by_contra hall
            push Not at hall
            exact hempty (by simp [queued, hinjector, hall])
          obtain ⟨job, rest, hq⟩ := List.exists_cons_of_ne_nil hvictim
          have hne : victim ≠ me := by
            rintro rfl
            exact hvictim hlocal
          exact ⟨_, .stealWorker me victim hne hme (show _ = [job] ++ rest from hq) .rfl,
            hbecome (by simp [Phase.failed]) rfl⟩
      · obtain ⟨rest, job, hq⟩ := (List.eq_nil_or_concat' (p.deques me)).resolve_left hlocal
        exact ⟨_, .popLocal me hme hq, hbecome (by simp [Phase.failed]) rfl⟩
  · push Not at hidle
    obtain ⟨me, hne, hne'⟩ := hidle
    cases hph : (p.workers me).phase with
    | idle => exact absurd hph hne
    | returned => exact absurd hph hne'
    | unwinding => exact absurd (show (p.workers me).phase.failed by rw [hph]; trivial) (hsound me)
    | panicked => exact absurd (show (p.workers me).phase.failed by rw [hph]; trivial) (hsound me)
    | running job =>
      obtain ⟨children, out, hrun⟩ := htotal job
      exact ⟨_, .finish me hph hrun, hmove (by simp [Phase.failed]) rfl⟩
    | counting children => exact ⟨_, .count me hph, hbecome (by simp [Phase.failed]) rfl⟩
    | leaving => exact ⟨_, .leave me hph, hbecome (by simp [Phase.failed]) rfl⟩
    | pushing children =>
      cases children with
      | nil => exact ⟨_, .retire me hph, hbecome (by simp [Phase.failed]) rfl⟩
      | cons child children => exact ⟨_, .push me hph, hbecome (by simp [Phase.failed]) rfl⟩

/-- The pool never gets stuck: as long as no job has panicked, it can still finish. -/
theorem Reachable.can_finish {key : J → K} {child : K → List K} {visited : List K}
    {p : Pool J O n} (htotal : ∀ job, ∃ children out, runs job children out)
    (hruns : ∀ {job children out}, runs job children out → children.map key = child (key job))
    (hvisited : Unfolds child (initial.map key) visited) (h : Reachable runs initial p)
    (hsound : Sound p) : ∃ q, Relation.ReflTransGen (Step runs) p q ∧ Finished q := by
  -- Every step visits a node of the unfolding or brings some worker closer to its next turn.
  obtain ⟨later, hlater, -⟩ := (h.tracks hruns hvisited).2.resolve_left fun ⟨w, hw⟩ => hsound w hw
  have hmain : ∀ m k (p : Pool J O n) (later : Multiset K), Reachable runs initial p → Sound p →
      MUnfolds child ((pending p).map key) later → later.card = m →
      (∑ w, (p.workers w).phase.rank) + (queued p).card = k →
      ∃ q, Relation.ReflTransGen (Step runs) p q ∧ Finished q := by
    intro m
    induction m using Nat.strong_induction_on with
    | _ m ihm =>
      intro k
      induction k using Nat.strong_induction_on with
      | _ k ihk =>
        intro p later h hsound hlater hm hk
        by_cases hfinished : Finished p
        · exact ⟨p, .refl, hfinished⟩
        · obtain ⟨p', hstep, hsound'⟩ := exists_step htotal h.accounted.1 hsound hfinished
          have h' : Reachable runs initial p' := h.tail hstep
          have hrest : ∃ q, Relation.ReflTransGen (Step runs) p' q ∧ Finished q := by
            rcases hstep.unfolds hruns hlater with ⟨w, hw⟩ | ⟨hlater', -, hlt⟩ |
                ⟨e, rest, hrest, hcons, -⟩
            · exact absurd hw (hsound' w)
            · exact ihk _ (by omega) p' later h' hsound' hlater' hm rfl
            · refine ihm rest.card ?_ _ p' rest h' hsound' hrest rfl rfl
              rw [← hm, hcons, Multiset.card_cons]
              exact Nat.lt_succ_self _
          obtain ⟨q, hq, hfinished⟩ := hrest
          exact ⟨q, .head hstep hq, hfinished⟩
  exact hmain _ _ p later h hsound hlater rfl rfl

/-! ## Results -/

/-- The lists of a finite family one after the other, as a multiset. -/
lemma coe_flatMap_finRange {α β : Type*} (f : Fin n → List α) (g : α → β) :
    (((List.finRange n).flatMap fun w => (f w).map g : List β) : Multiset β) =
      (∑ w, (f w : Multiset α)).map g := by
  have hsum := map_sum (Multiset.mapAddMonoidHom g) (fun w => (f w : Multiset α)) Finset.univ
  rw [Multiset.coe_mapAddMonoidHom] at hsum
  rw [hsum, ← Multiset.coe_bind, Finset.sum, Fin.univ_def]
  rfl

/-- The jobs run are those of the log, in some order. -/
lemma coe_ran (p : Pool J O n) : (p.ran : Multiset J) = (logged p).map Prod.fst :=
  coe_flatMap_finRange _ _

/-- The outputs merged are those of the log, in some order. -/
lemma coe_merged (p : Pool J O n) : (p.merged : Multiset O) = (logged p).map Prod.snd :=
  coe_flatMap_finRange _ _

/-- The pool loses and duplicates no job and never stops early.  The children and the output of a
job depend only on the job here, as they do for a schedule-independent walker.  `run` clamps its
number of workers to at least one. -/
theorem pool_exactly_once (child : J → List J) (out : J → O) (initial : List J) (n : ℕ)
    (p : Pool J O (n + 1))
    (h : Reachable (fun job children o => children = child job ∧ o = out job) initial p) :
    p.inFlight = (queued p).card + ∑ w, (p.workers w).phase.unretired +
        ∑ w, (p.workers w).phase.unpushed ∧
      ((∃ w, (p.workers w).phase.stopped) → Quiet p) ∧
      ∀ visited, Unfolds child initial visited → Finished p →
        (ran p).Perm visited ∧ (merged p).Perm (visited.map out) := by
  obtain ⟨hacc, hsettled⟩ := h.accounted
  refine ⟨hacc, fun ⟨w, hw⟩ => hacc.quiet (hsettled w hw), fun visited hvisited hfinished => ?_⟩
  have hinitial : Unfolds child (initial.map id) visited := by rwa [List.map_id]
  have hran : ((ran p : List J) : Multiset J) = visited := by
    rw [coe_ran]
    exact h.complete (fun hrun => by rw [List.map_id]; exact hrun.1) hinitial
      n.succ_pos hfinished
  have hgenuine := (h.tracks (fun hrun => by rw [List.map_id]; exact hrun.1)
    hinitial).1
  have hmerged : (merged p : Multiset O) = (ran p : Multiset J).map out := by
    rw [coe_merged, coe_ran, Multiset.map_map]
    refine Multiset.map_congr rfl fun e he => ?_
    obtain ⟨children, -, hout⟩ := hgenuine e he
    exact hout
  refine ⟨Multiset.coe_eq_coe.mp hran, Multiset.coe_eq_coe.mp ?_⟩
  rw [hmerged, hran, Multiset.map_coe]

/-- A job with that many children, all of them leaves. -/
def sampleRuns (job : ℕ) (children : List ℕ) (out : ℕ) : Prop :=
  children = List.replicate job 0 ∧ out = job + 10

/-- Two workers share one job and its two children, the second by a steal. -/
lemma exists_sample_run : ∃ p : Pool ℕ ℕ 2, Reachable sampleRuns [2] p ∧ Finished p := by
  have h0 : Reachable sampleRuns [2] (start [2] : Pool ℕ ℕ 2) := Transition.Reachable.initial rfl
  have next : ∀ {p q : Pool ℕ ℕ 2}, Reachable sampleRuns [2] p → Step sampleRuns p q →
    Reachable sampleRuns [2] q := fun h hstep => h.tail hstep
  have h1 := next h0 (.stealInjector 0 rfl (show [2] = 2 :: ([] ++ []) from rfl) .rfl)
  have h2 := next h1 (.finish 0 rfl ⟨rfl, rfl⟩)
  have h3 := next h2 (.count 0 rfl)
  have h4 := next (next h3 (.push 0 rfl)) (.push 0 rfl)
  have h5 := next h4
    (.stealWorker 1 0 (by decide) rfl (show [0, 0] = [0] ++ [0] from rfl) .rfl)
  have h6 := next h5 (.retire 0 rfl)
  have h7 := next h6 (.popLocal 0 rfl (show [0] = [] ++ [0] from rfl))
  have h8 := next (next h7 (.finish 1 rfl ⟨rfl, rfl⟩)) (.finish 0 rfl ⟨rfl, rfl⟩)
  have h9 := next (next h8 (.count 0 rfl)) (.retire 0 rfl)
  have h10 := next (next h9 (.count 1 rfl)) (.retire 1 rfl)
  have h11 := next (next h10 (.load 0 rfl rfl)) (.leave 0 rfl)
  have h12 := next (next h11 (.load 1 rfl rfl)) (.leave 1 rfl)
  refine ⟨_, h12, fun w => ?_⟩
  match w with
  | 0 => rfl
  | 1 => rfl

/-- Two workers run a job and both of its children, and return their outputs. -/
theorem pool_exactly_once_sample : ∃ p : Pool ℕ ℕ 2, Quiet p ∧
    (ran p).Perm [2, 0, 0] ∧ (merged p).Perm [12, 10, 10] := by
  obtain ⟨p, hreach, hfinished⟩ := exists_sample_run
  obtain ⟨-, hquiet, hcomplete⟩ :=
    pool_exactly_once (fun job => List.replicate job 0) (fun job => job + 10) [2] 1 p hreach
  have hstopped : (p.workers 0).phase.stopped := by rw [hfinished 0]; trivial
  have hunfolds : Unfolds (fun job => List.replicate job 0) [2] [2, 0, 0] :=
    .cons (.cons (.cons .nil))
  exact ⟨p, hquiet ⟨0, hstopped⟩, hcomplete _ hunfolds hfinished⟩

end Pool

end Scap
