import Mathlib.Data.Prod.Lex
import Scap.Foundations.Locks
import Scap.Walk.Pool

/-!
# Where idle workers wait

`Park` (`src/walk/pool.rs`, with what `work` and the drop of a `Retire` do about it): the mutex, the
condition variable and the count of sleepers.  A worker that has pushed children wakes the sleepers
if it sees any; one that has retired the last job wakes them all.  A worker that has found nothing
to do counts itself and waits, unless nothing is in flight any more when it looks again.

Between the look and the wait, and between a push and the look at the count, the other workers go
on.  So a push may wake nobody; a wait is limited to half a millisecond for that.  The walk does not
need the limit: the worker that retires the last job wakes whoever waits, and until then whoever has
a job in its deque is awake.  Only the jobs a panic leaves behind may have to be found by a worker
whose time is up (`parked_walk_ends`).
-/

namespace Scap

open Function (update)
open Counter (sum_update)

/-- Where a worker stands towards the `Park`. -/
inductive Spot where
  /-- In its loop. -/
  | free
  /-- `wake`, before the load of `sleepers`. -/
  | waking
  /-- `wake`, at the mutex. -/
  | wakeLocking
  /-- `wake_all_final`, at the mutex. -/
  | finalLocking
  /-- About to notify all, with the mutex. -/
  | notifying
  /-- About to drop the guard. -/
  | releasing
  /-- Found nothing to do, and that the walk is not over: at the mutex. -/
  | parking
  /-- About to add itself to `sleepers`, with the mutex. -/
  | locked
  /-- About to load `in_flight` again, with the mutex. -/
  | counted
  /-- The walk is not over: about to wait, with the mutex. -/
  | staying
  /-- The walk is over: about to take itself off `sleepers`, with the mutex. -/
  | passing
  /-- In `wait_timeout`, without the mutex. -/
  | waiting
  /-- In `wait_timeout`, no longer waiting, at the mutex. -/
  | woken
  /-- Returned from `wait_timeout`: about to take itself off `sleepers`, with the mutex. -/
  | back
deriving DecidableEq

/-- How many steps a worker in this phase has left before its thread ends, as far as it can be said
without running another job. -/
def Phase.effort {J : Type*} : Phase J → ℕ
  | .unwinding => 1
  | phase => phase.rank

namespace Spot

/-- What the mutex is wanted for. -/
def onLock : Spot → Option Spot
  | wakeLocking | finalLocking => some notifying
  | parking => some locked
  | woken => some back
  | _ => none

/-- The mutex, if the worker has it. -/
def held : Spot → Option Unit
  | notifying | releasing | locked | counted | staying | passing | back => some ()
  | _ => none

/-- How often the worker is counted in `sleepers`. -/
def registered : Spot → ℤ
  | counted | staying | passing | waiting | woken | back => 1
  | _ => 0

/-- The worker has found nothing to do. -/
def idles : Spot → Prop
  | parking | locked | counted | staying | waiting => True
  | _ => False

/-- The worker waits or is about to. -/
def dozes : Spot → Prop
  | staying | waiting => True
  | _ => False

/-- The worker is going to notify all. -/
def calls : Spot → Prop
  | finalLocking | notifying => True
  | _ => False

/-- How many steps the worker needs to be free, once somebody notifies it. -/
def left : Spot → ℕ
  | free => 0
  | releasing => 1
  | notifying | passing | back => 2
  | wakeLocking | finalLocking | woken => 3
  | waking | waiting => 4
  | staying => 5
  | counted => 6
  | locked => 7
  | parking => 8

/-- What a worker has to do about the `Park` after a step of its loop: wake the others once its
children are pushed, and wake all once the last job is retired. -/
def after {J : Type*} (inFlight : ℤ) : Phase J → Phase J → Spot
  | .pushing _, .pushing [] => waking
  | .pushing _, .idle => if inFlight = 1 then finalLocking else free
  | .unwinding, .panicked => if inFlight = 1 then finalLocking else free
  | _, _ => free

/-- A sleeper that is notified. -/
def notified : Spot → Spot
  | waiting => woken
  | spot => spot

/-- After a step of its loop a worker is free, is to wake the others, or is to wake all at the end.
-/
lemma after_cases {J : Type*} (inFlight : ℤ) (old new : Phase J) :
    after inFlight old new = free ∨ after inFlight old new = waking ∨
      after inFlight old new = finalLocking := by
  have hlast : ∀ p : Prop, [Decidable p] → (if p then finalLocking else free) = free ∨
      (if p then finalLocking else free) = finalLocking := fun p _ => by split_ifs <;> simp
  unfold after
  split
  · exact .inr (.inl rfl)
  · exact (hlast _).imp_right .inr
  · exact (hlast _).imp_right .inr
  · exact .inl rfl

/-- After a step of its loop a worker neither has the mutex nor is counted, and does not doze. -/
lemma after_awake {J : Type*} (inFlight : ℤ) (old new : Phase J) :
    (after inFlight old new).held = none ∧ (after inFlight old new).registered = 0 ∧
      ¬(after inFlight old new).idles ∧ ¬(after inFlight old new).dozes := by
  rcases after_cases inFlight old new with h | h | h <;> rw [h] <;>
    exact ⟨rfl, rfl, not_false, not_false⟩

/-- Notifying a sleeper gives it no mutex. -/
@[simp] lemma held_notified (spot : Spot) : spot.notified.held = spot.held := by
  cases spot <;> rfl

/-- Notifying a sleeper leaves it counted. -/
@[simp] lemma registered_notified (spot : Spot) : spot.notified.registered = spot.registered := by
  cases spot <;> rfl

/-- Whoever has nothing to do when notified had nothing to do before. -/
lemma idles_of_notified {spot : Spot} (h : spot.notified.idles) : spot.idles := by
  cases spot <;> first | exact h | trivial

/-- Whoever still dozes when notified has not begun to wait. -/
lemma eq_staying_of_notified {spot : Spot} (h : spot.notified.dozes) : spot = staying := by
  cases spot <;> first | rfl | exact h.elim

end Spot

/-- The pool with its `Park`. -/
structure Lot (J O : Type) (n : ℕ) where
  pool : Pool J O n
  /-- The workers towards the `Park`. -/
  spot : Fin n → Spot
  /-- The count, as an integer so that an underflow would show. -/
  sleepers : ℤ
  /-- The owner of the mutex. -/
  mutex : Option (Fin n)

namespace Lot

variable {J O K : Type} {n : ℕ}

/-- `run` before its workers start. -/
def start (initial : List J) : Lot J O n := ⟨.start initial, fun _ => .free, 0, none⟩

/-- Worker `me` moves to a spot. -/
def move (l : Lot J O n) (me : Fin n) (spot : Spot) : Lot J O n :=
  { l with spot := update l.spot me spot }

/-- The load of a worker that has found nothing to do, which finds that the walk is not over.  Its
own deque and the injector were empty when `find_job` looked, and have stayed so.  It may have
looked any number of times. -/
inductive Park : Lot J O n → Lot J O n → Prop
  | park {l : Lot J O n} (me : Fin n) :
      l.spot me = .free → (l.pool.workers me).phase = .idle → l.pool.deques me = [] →
      l.pool.injector = [] → l.pool.inFlight ≠ 0 → Park l (l.move me .parking)

/-- Any other atomic step of one worker.  A wait may end without a notification if `rouses`: its
time is up, or it ends spuriously. -/
inductive Step (runs : J → List J → O → Prop) (rouses : Prop) : Lot J O n → Lot J O n → Prop
  /-- A step of the loop, which the other workers do not notice. -/
  | work {l : Lot J O n} (me : Fin n) {q : Pool J O n} :
      l.spot me = .free → Pool.Step runs l.pool q →
      (∀ w ≠ me, q.workers w = l.pool.workers w) →
      Step runs rouses l { l.move me (.after l.pool.inFlight (l.pool.workers me).phase
        (q.workers me).phase) with pool := q }
  /-- `self.sleepers.load()`. -/
  | load {l : Lot J O n} (me : Fin n) : l.spot me = .waking →
      Step runs rouses l (l.move me (if l.sleepers > 0 then .wakeLocking else .free))
  /-- `self.lock()`, also on the way out of `wait_timeout`. -/
  | lock {l : Lot J O n} (me : Fin n) {spot : Spot} :
      (l.spot me).onLock = some spot → l.mutex = none →
      Step runs rouses l { l.move me spot with mutex := some me }
  /-- `condvar.notify_all()`. -/
  | notify {l : Lot J O n} (me : Fin n) : l.spot me = .notifying →
      Step runs rouses l { l with spot := update (fun w => (l.spot w).notified) me .releasing }
  /-- The guard is dropped. -/
  | release {l : Lot J O n} (me : Fin n) : l.spot me = .releasing →
      Step runs rouses l { l.move me .free with mutex := none }
  /-- `sleepers.fetch_add(1)`. -/
  | count {l : Lot J O n} (me : Fin n) : l.spot me = .locked →
      Step runs rouses l { l.move me .counted with sleepers := l.sleepers + 1 }
  /-- The load under the mutex that finds that the walk is not over. -/
  | stay {l : Lot J O n} (me : Fin n) : l.spot me = .counted → l.pool.inFlight ≠ 0 →
      Step runs rouses l (l.move me .staying)
  /-- The load under the mutex that finds the walk over. -/
  | pass {l : Lot J O n} (me : Fin n) : l.spot me = .counted → l.pool.inFlight = 0 →
      Step runs rouses l { l.move me .passing with pool := l.pool.become me .leaving }
  /-- `condvar.wait_timeout(guard)` gives up the mutex. -/
  | wait {l : Lot J O n} (me : Fin n) : l.spot me = .staying →
      Step runs rouses l { l.move me .waiting with mutex := none }
  /-- A wait ends without a notification. -/
  | rouse {l : Lot J O n} (me : Fin n) : rouses → l.spot me = .waiting →
      Step runs rouses l (l.move me .woken)
  /-- `sleepers.fetch_sub(1)`. -/
  | uncount {l : Lot J O n} (me : Fin n) : l.spot me = .passing ∨ l.spot me = .back →
      Step runs rouses l { l.move me .releasing with sleepers := l.sleepers - 1 }

/-- One atomic step of one worker. -/
def Next (runs : J → List J → O → Prop) (l l' : Lot J O n) : Prop := Step runs True l l' ∨ Park l l'

/-- The states of a run on the given initial jobs. -/
def Reachable (runs : J → List J → O → Prop) (initial : List J) (l : Lot J O n) : Prop :=
  Transition.Reachable (· = start initial) (Next runs) l

/-- Every worker has returned its output. -/
def Finished (l : Lot J O n) : Prop := l.pool.Finished ∧ ∀ w, l.spot w = .free

/-- Every worker has returned its output or panicked, so that the scope of the threads ends. -/
def Ended (l : Lot J O n) : Prop :=
  ∀ w, ((l.pool.workers w).phase = .returned ∨ (l.pool.workers w).phase = .panicked) ∧
    l.spot w = .free

/-! ## What a step of the loop does -/

end Lot

namespace Pool

variable {J O K : Type} {n : ℕ} {runs : J → List J → O → Prop} {initial : List J}
  {p q : Pool J O n} {me v : Fin n}

/-- A worker that keeps another phase is not the one that took the step. -/
lemma ne_of_become {phase : Phase J} (h : (p.become me phase).workers v = p.workers v)
    (hphase : phase ≠ (p.workers me).phase) : v ≠ me := by
  rintro rfl
  simp only [become, Function.update_self] at h
  exact hphase (congrArg Worker.phase h)

/-- The worker whose step it is moves to another phase. -/
lemma Step.phase_ne (h : Step runs p q) (hrest : ∀ w ≠ me, q.workers w = p.workers w) :
    ∃ new taken given entry d, Effect runs p.inFlight (p.workers me).phase new taken given entry d ∧
      (q.workers me).phase = new ∧ q.inFlight = p.inFlight + d := by
  obtain ⟨me', old, new, taken, given, entry, d, heffect, hold, hworkers, hcount, -⟩ := h.effect
  have hphase : (q.workers me').phase = new := by rw [hworkers, Function.update_self]
  have hne : new ≠ old := by
    cases heffect with
    | push child children => simp
    | _ => simp
  obtain rfl : me' = me := by
    by_contra hme
    rw [hrest me' hme, hold] at hphase
    exact hne hphase.symm
  exact ⟨new, taken, given, entry, d, hold ▸ heffect, hphase, hcount⟩

/-- The deque of a worker that does nothing stays empty once the injector is. -/
lemma Step.vacant (h : Step runs p q) (hv : q.workers v = p.workers v) (hinjector : p.injector = [])
    (hdeque : p.deques v = []) : q.injector = [] ∧ q.deques v = [] := by
  cases h with
  | @popLocal me job rest hph hq =>
    have hne := ne_of_become hv (by simp [hph])
    exact ⟨hinjector, (Function.update_of_ne hne ..).trans hdeque⟩
  | @stealInjector me job batch moved rest hph hq =>
    rw [hinjector] at hq
    cases hq
  | @stealWorker me victim job batch moved rest hvictim hph hq hmoved =>
    have hne := ne_of_become hv (by simp [hph])
    have hne' : v ≠ victim := by
      rintro rfl
      rw [hdeque, eq_comm, List.append_eq_nil_iff] at hq
      exact List.not_perm_nil_cons job moved (hq.1 ▸ hmoved)
    exact ⟨hinjector, (Function.update_of_ne hne ..).trans
      ((Function.update_of_ne hne' ..).trans hdeque)⟩
  | @push me child children hph =>
    have hne := ne_of_become hv (by simp [hph])
    exact ⟨hinjector, (Function.update_of_ne hne ..).trans hdeque⟩
  | _ => exact ⟨hinjector, hdeque⟩

/-! ## How far the loop has to go -/

/-- How many steps the workers have left, as far as it can be said without running another job. -/
def effort (p : Pool J O n) : ℕ := ∑ w, (p.workers w).phase.effort + (queued p).card

/-- A step runs a pending job and leaves its children in its place, or brings the workers closer to
their ends and at most loses a job to a panic. -/
lemma Step.shrinks (h : Step runs p q) : pending q ≤ pending p ∧ effort q < effort p ∨
    ∃ job children out others, runs job children out ∧ pending p = job ::ₘ others ∧
      pending q = (children : Multiset J) + others := by
  obtain ⟨me, old, new, taken, given, entry, d, heffect, hold, hworkers, -, hqueued⟩ := h.effect
  have hpending := pending_step hworkers hqueued
  have heffort := sum_phase Phase.effort hworkers
  have hcard := congrArg Multiset.card hqueued
  rw [hold] at hpending heffort
  simp only [Multiset.card_add, Multiset.coe_card] at hcard heffort
  have hmoves : (given : Multiset J) + new.held ≤ (taken : Multiset J) + old.held →
      new.effort + given.length < old.effort + taken.length →
      pending q ≤ pending p ∧ effort q < effort p := by
    intro hjobs hlt
    refine ⟨?_, ?_⟩
    · refine le_of_add_le_add_right (a := (taken : Multiset J) + old.held) ?_
      rw [hpending]
      exact add_le_add_right hjobs _
    · unfold effort
      omega
  cases heffect with
  | @finish job children out hrun =>
    -- The job was pending, and its children take its place.
    obtain ⟨others, hothers⟩ : ∃ others, pending p = job ::ₘ others := by
      refine Multiset.exists_cons_of_mem ?_
      have hmem : job ∈ ∑ w, (p.workers w).phase.held :=
        Multiset.mem_sum.mpr ⟨me, by simp, by simp [hold, Phase.held]⟩
      exact Multiset.mem_add.mpr (.inr hmem)
    refine .inr ⟨job, children, out, others, hrun, hothers, ?_⟩
    refine add_right_cancel (b := ({job} : Multiset J)) ?_
    simpa [Phase.held, hothers, ← Multiset.singleton_add, add_comm, add_left_comm, add_assoc]
      using hpending
  | _ => exact .inl (hmoves (by simp [Phase.held]) (by simp [Phase.effort, Phase.rank] <;> omega))

/-- A step of the loop leaves fewer nodes to visit, or as many and less effort. -/
lemma Step.exists_later {key : J → K} {child : K → List K} {later : Multiset K}
    (hruns : ∀ {job children out}, runs job children out → children.map key = child (key job))
    (h : Step runs p q) (hlater : MUnfolds child ((pending p).map key) later) :
    ∃ later', MUnfolds child ((pending q).map key) later' ∧
      (later'.card < later.card ∨ later'.card = later.card ∧ effort q < effort p) := by
  rcases h.shrinks with ⟨hle, hlt⟩ | ⟨job, children, out, others, hrun, hothers, hq⟩
  · obtain ⟨later', hlater', hcard⟩ := hlater.exists_of_le (Multiset.map_le_map hle)
    exact ⟨later', hlater', hcard.lt_or_eq.imp_right fun heq => ⟨heq, hlt⟩⟩
  · rw [hothers, Multiset.map_cons] at hlater
    obtain ⟨rest, hrest, rfl⟩ := hlater.visit
    refine ⟨rest, ?_, .inl ?_⟩
    · rwa [hq, Multiset.map_add, Multiset.map_coe, hruns hrun]
    · rw [Multiset.card_cons]
      exact Nat.lt_succ_self _

/-- In every state the pending jobs unfold, also when a panic has lost some. -/
lemma Reachable.exists_later {key : J → K} {child : K → List K} {visited : List K}
    (hruns : ∀ {job children out}, runs job children out → children.map key = child (key job))
    (hvisited : Unfolds child (initial.map key) visited) (h : Reachable runs initial p) :
    ∃ later, MUnfolds child ((pending p).map key) later := by
  refine Transition.Reachable.invariant
    (P := fun p => ∃ later, MUnfolds child ((pending p).map key) later) ?_ ?_ h
  · rintro _ rfl
    refine ⟨visited, ?_⟩
    simpa [pending, queued, start, Phase.held] using MUnfolds.of_unfolds hvisited
  · rintro p q - ⟨later, hlater⟩ hstep
    obtain ⟨later', hlater', -⟩ := hstep.exists_later hruns hlater
    exact ⟨later', hlater'⟩

/-- A worker moves to a phase in which its job has not panicked. -/
lemma Sound.update (h : Sound p) {w : Worker J O} (hw : ¬w.phase.failed)
    (hq : q.workers = update p.workers me w) : Sound q := by
  rw [Sound, hq]
  exact (Function.forall_update_iff p.workers fun _ w => ¬w.phase.failed).mpr ⟨hw, fun v _ => h v⟩

/-- An idle worker can take a job, if there is one in a queue. -/
lemma exists_take (hidle : (p.workers me).phase = .idle) (hqueued : queued p ≠ 0) :
    ∃ q job, Step runs p q ∧ q.workers = (p.become me (.running job)).workers := by
  obtain ⟨rest, job, hq⟩ | hlocal := (List.eq_nil_or_concat' (p.deques me)).symm
  · exact ⟨_, job, .popLocal me hidle hq, rfl⟩
  · cases hinjector : p.injector with
    | cons job rest =>
      exact ⟨_, job, .stealInjector me hidle (show _ = job :: ([] ++ rest) from hinjector) .rfl,
        rfl⟩
    | nil =>
      obtain ⟨victim, hvictim⟩ : ∃ victim, p.deques victim ≠ [] := by
        by_contra hall
        push Not at hall
        exact hqueued (by simp [queued, hinjector, hall])
      obtain ⟨job, rest, hq⟩ := List.exists_cons_of_ne_nil hvictim
      have hne : victim ≠ me := by
        rintro rfl
        exact hvictim hlocal
      exact ⟨_, job, .stealWorker me victim hne hidle (show _ = [job] ++ rest from hq) .rfl, rfl⟩

/-- A worker that is neither idle nor at its end can go on. -/
lemma exists_turn_of_busy (htotal : ∀ job, ∃ children out, runs job children out)
    (hidle : (p.workers me).phase ≠ .idle) (hreturned : (p.workers me).phase ≠ .returned)
    (hpanicked : (p.workers me).phase ≠ .panicked) :
    ∃ q w, Step runs p q ∧ q.workers = update p.workers me w ∧ (Sound p → ¬w.phase.failed) := by
  cases hph : (p.workers me).phase with
  | idle => exact absurd hph hidle
  | returned => exact absurd hph hreturned
  | panicked => exact absurd hph hpanicked
  | running job =>
    obtain ⟨children, out, hrun⟩ := htotal job
    exact ⟨_, _, .finish me hph hrun, rfl, fun _ => not_false⟩
  | counting children => exact ⟨_, _, .count me hph, rfl, fun _ => not_false⟩
  | pushing children =>
    cases children with
    | nil => exact ⟨_, _, .retire me hph, rfl, fun _ => not_false⟩
    | cons child children => exact ⟨_, _, .push me hph, rfl, fun _ => not_false⟩
  | unwinding =>
    exact ⟨_, _, .unwind me hph, rfl, fun hsound => absurd (by rw [hph]; trivial) (hsound me)⟩
  | leaving => exact ⟨_, _, .leave me hph, rfl, fun _ => not_false⟩

/-- When all workers are idle or at their ends, what is in flight is queued. -/
lemma queued_ne_zero (hacc : Accounted p) (hquiet : ∀ w, (p.workers w).phase ≠ .idle →
    (p.workers w).phase ≠ .returned → (p.workers w).phase = .panicked) (h : p.inFlight ≠ 0) :
    queued p ≠ 0 := by
  have hnone : ∀ w, (p.workers w).phase.unretired = 0 ∧ (p.workers w).phase.unpushed = 0 := by
    intro w
    by_cases hw : (p.workers w).phase = .idle ∨ (p.workers w).phase = .returned
    · rcases hw with hw | hw <;> rw [hw] <;> exact ⟨rfl, rfl⟩
    · push Not at hw
      rw [hquiet w hw.1 hw.2]
      exact ⟨rfl, rfl⟩
  intro hempty
  refine h ?_
  rw [hacc, hempty]
  simp [hnone]

/-- As long as some thread has not ended, a worker that is free has a step to take, if the others
have found nothing to do and the walk is not over for them.  If no job has panicked, none does. -/
lemma exists_turn (htotal : ∀ job, ∃ children out, runs job children out) (hacc : Accounted p)
    (hsettled : Settled p) (free : Fin n → Prop)
    (hrest : ∀ w, ¬free w → p.inFlight ≠ 0 ∧ (p.workers w).phase = .idle ∧ p.injector = [] ∧
      p.deques w = [])
    (hfree : Sound p ∨ ∀ w, free w)
    (hended : ∃ w, (p.workers w).phase ≠ .returned ∧ (p.workers w).phase ≠ .panicked) :
    ∃ me q w, free me ∧ Step runs p q ∧ q.workers = update p.workers me w ∧
      (Sound p → ¬w.phase.failed) := by
  by_cases hbusy : ∃ w, (p.workers w).phase ≠ .idle ∧ (p.workers w).phase ≠ .returned ∧
      (p.workers w).phase ≠ .panicked
  · obtain ⟨me, hidle, hreturned, hpanicked⟩ := hbusy
    have hme : free me := by
      by_contra hnot
      exact hidle (hrest me hnot).2.1
    obtain ⟨q, w, hturn⟩ := exists_turn_of_busy htotal hidle hreturned hpanicked
    exact ⟨me, q, w, hme, hturn⟩
  push Not at hbusy
  obtain ⟨me, hreturned, hpanicked⟩ := hended
  have hidle : (p.workers me).phase = .idle := by
    by_contra hidle
    exact hpanicked (hbusy me hidle hreturned)
  by_cases hzero : p.inFlight = 0
  · have hme : free me := by
      by_contra hnot
      exact (hrest me hnot).1 hzero
    exact ⟨me, _, _, hme, .load me hidle hzero, rfl, fun _ => not_false⟩
  have hqueued := queued_ne_zero hacc hbusy hzero
  -- If this worker is not free, the job is in the deque of one that is.
  obtain ⟨me, hme, hidle⟩ : ∃ me, free me ∧ (p.workers me).phase = .idle := by
    by_cases hme : free me
    · exact ⟨me, hme, hidle⟩
    · have hsound := hfree.resolve_right fun hall => hme (hall me)
      obtain ⟨v, hv⟩ : ∃ v, p.deques v ≠ [] := by
        by_contra hall
        push Not at hall
        exact hqueued (by simp [queued, (hrest me hme).2.2.1, hall])
      refine ⟨v, by_contra fun hnot => hv (hrest v hnot).2.2.2, by_contra fun hne => ?_⟩
      have hreturned : (p.workers v).phase ≠ .returned := fun h =>
        hzero (hsettled v (by rw [h]; trivial))
      exact hsound v (by rw [hbusy v hne hreturned]; trivial)
  obtain ⟨q, job, hstep, hq⟩ := exists_take hidle hqueued
  exact ⟨me, q, _, hme, hstep, hq, fun _ => not_false⟩

end Pool

namespace Lot

/-! ## What holds in every state -/

variable {J O K : Type} {n : ℕ} {runs : J → List J → O → Prop} {rouses : Prop} {initial : List J}
  {l l' : Lot J O n} {me : Fin n} {new : Spot}

/-- The pool runs as if there were no `Park`; the mutex has one owner and the count is right; who
has found nothing to do has an empty deque, and so is the injector; and once nothing is in flight,
somebody is about to notify whoever waits. -/
structure Inv (runs : J → List J → O → Prop) (initial : List J) (l : Lot J O n) : Prop where
  pool : Pool.Reachable runs initial l.pool
  owned : Owned Spot.held (fun _ => l.mutex) l.spot
  sleepers : l.sleepers = ∑ w, (l.spot w).registered
  idles : ∀ w, (l.spot w).idles → (l.pool.workers w).phase = .idle ∧ l.pool.injector = [] ∧
    l.pool.deques w = []
  called : l.pool.inFlight = 0 → (∃ w, (l.spot w).dozes) → ∃ v, (l.spot v).calls

namespace Inv

/-- A worker moves to another spot.  It does not doze off once nothing is in flight, and does not
give up a call as long as somebody dozes. -/
lemma turn (h : Inv runs initial l) {old : Spot} (hold : l.spot me = old) {sleepers : ℤ}
    {mutex : Option (Fin n)} (howned : Owned Spot.held (fun _ => mutex) (update l.spot me new))
    (hsleepers : sleepers + old.registered = l.sleepers + new.registered)
    (hidles : new.idles → old.idles ∨ (l.pool.workers me).phase = .idle ∧
      l.pool.injector = [] ∧ l.pool.deques me = [])
    (hdozes : new.dozes → old.dozes ∨ l.pool.inFlight ≠ 0)
    (hcalls : old.calls → new.calls ∨ ∀ w, ¬(update l.spot me new w).dozes) :
    Inv runs initial ⟨l.pool, update l.spot me new, sleepers, mutex⟩ := by
  subst hold
  refine ⟨h.pool, howned, ?_, fun w hw => ?_, fun hzero ⟨w, hw⟩ => ?_⟩
  · have hsum := sum_update l.spot Spot.registered me new
    rw [← h.sleepers] at hsum
    simp only
    linarith
  · simp only at hw
    rcases Transition.update_cases Spot.idles hw with ⟨rfl, hnew⟩ | ⟨-, hold⟩
    · exact (hidles hnew).elim (h.idles w) id
    · exact h.idles w hold
  · simp only at hw ⊢
    obtain ⟨v, hv⟩ : ∃ v, (l.spot v).calls := by
      rcases Transition.update_cases Spot.dozes hw with ⟨rfl, hnew⟩ | ⟨-, hold⟩
      · exact h.called hzero ⟨w, (hdozes hnew).resolve_right (not_not_intro hzero)⟩
      · exact h.called hzero ⟨w, hold⟩
    by_cases hvme : v = me
    · subst hvme
      exact ⟨v, by rw [Function.update_self]; exact (hcalls hv).resolve_right fun h => h w hw⟩
    · exact ⟨v, by rwa [Function.update_of_ne hvme]⟩

/-- The mutex is taken. -/
lemma acquire (h : Inv runs initial l) (hfree : l.mutex = none) (hnone : (l.spot me).held = none)
    (hnew : new.held = some ()) :
    Owned Spot.held (fun _ => some me) (update l.spot me new) := by
  have howned := h.owned.acquire (l := ()) hfree hnone hnew
  rwa [show update (fun _ => l.mutex) () (some me) = fun _ => some me from
    funext fun _ => Function.update_self ..] at howned

/-- The mutex is given back. -/
lemma release (h : Inv runs initial l) (hheld : (l.spot me).held = some ())
    (hnew : new.held = none) : Owned Spot.held (fun _ => none) (update l.spot me new) := by
  have howned := h.owned.release (l := ()) hheld hnew
  rwa [show update (fun _ => l.mutex) () none = fun _ => none from
    funext fun _ => Function.update_self ..] at howned

/-- The pool takes a step. -/
lemma setPool (h : Inv runs initial l) (me : Fin n) {q : Pool J O n}
    (hstep : Pool.Step runs l.pool q) (hrest : ∀ w ≠ me, q.workers w = l.pool.workers w)
    (hbusy : ¬(l.spot me).idles)
    (hlast : l.pool.inFlight ≠ 0 → q.inFlight = 0 → (l.spot me).calls) :
    Inv runs initial { l with pool := q } := by
  refine ⟨h.pool.tail hstep, h.owned, h.sleepers, fun w hw => ?_, fun hzero hdozes => ?_⟩
  · have hne : w ≠ me := by
      rintro rfl
      exact hbusy hw
    obtain ⟨hidle, hinjector, hdeque⟩ := h.idles w hw
    exact ⟨by rw [hrest w hne, hidle], hstep.vacant (hrest w hne) hinjector hdeque⟩
  · by_cases hbefore : l.pool.inFlight = 0
    · exact h.called hbefore hdozes
    · exact ⟨me, hlast hbefore hzero⟩

/-- Who retires the last job wakes all. -/
lemma after_last (h : Inv runs initial l) {q : Pool J O n} (hstep : Pool.Step runs l.pool q)
    (hrest : ∀ w ≠ me, q.workers w = l.pool.workers w) (hbefore : l.pool.inFlight ≠ 0)
    (hzero : q.inFlight = 0) :
    Spot.after l.pool.inFlight (l.pool.workers me).phase (q.workers me).phase = .finalLocking := by
  obtain ⟨new, taken, given, entry, d, heffect, rfl, hcount⟩ := hstep.phase_ne hrest
  have hnonneg : 0 ≤ l.pool.inFlight := by
    have hacc := h.pool.accounted.1
    unfold Pool.Accounted at hacc
    omega
  generalize (l.pool.workers me).phase = old at heffect
  generalize (q.workers me).phase = new at heffect
  cases heffect with
  | retire => exact if_pos (by omega)
  | unwind => exact if_pos (by omega)
  | _ => omega

/-- All sleepers are notified, by a worker that goes on to do so. -/
lemma notified (h : Inv runs initial l) (hspot : l.spot me = .notifying) :
    Inv runs initial { l with spot := fun w => (l.spot w).notified } where
  pool := h.pool
  owned t w := by simpa using h.owned t w
  sleepers := by simpa using h.sleepers
  idles w hw := h.idles w (Spot.idles_of_notified hw)
  called _ _ := ⟨me, by simp only [hspot]; trivial⟩

/-- A step about the `Park` keeps the invariant. -/
lemma park (h : Inv runs initial l) (hpark : Park l l') : Inv runs initial l' := by
  cases hpark with
  | park me hfree hidle hdeque hinjector hflight =>
    exact h.turn hfree (h.owned.keep (by rw [hfree]; rfl)) rfl
      (fun _ => .inr ⟨hidle, hinjector, hdeque⟩) False.elim False.elim

/-- A step keeps the invariant. -/
lemma step (h : Inv runs initial l) (hstep : Step runs rouses l l') : Inv runs initial l' := by
  cases hstep with
  | @work me q hfree hpool hrest =>
    obtain ⟨hheld, hregistered, hidles, hdozes⟩ := Spot.after_awake l.pool.inFlight
      (l.pool.workers me).phase (q.workers me).phase
    have hlast := h.after_last hpool hrest
    refine (h.turn hfree (h.owned.keep ?_) ?_ ?_ ?_ False.elim).setPool me hpool hrest ?_ ?_
    · rw [hheld, hfree]
      rfl
    · rw [hregistered]
      rfl
    · exact fun hnew => absurd hnew hidles
    · exact fun hnew => absurd hnew hdozes
    · simpa only [Function.update_self] using hidles
    · intro hbefore hzero
      simp only [Function.update_self, hlast hbefore hzero]
      trivial
  | load me hspot =>
    split_ifs
    · exact h.turn hspot (h.owned.keep (by rw [hspot]; rfl)) rfl False.elim False.elim False.elim
    · exact h.turn hspot (h.owned.keep (by rw [hspot]; rfl)) rfl False.elim False.elim False.elim
  | @lock me spot hspot hfree =>
    cases hold : l.spot me <;> rw [hold] at hspot <;> cases hspot
    · exact h.turn hold (h.acquire hfree (by rw [hold]; rfl) rfl) rfl False.elim False.elim
        False.elim
    · exact h.turn hold (h.acquire hfree (by rw [hold]; rfl) rfl) rfl False.elim False.elim
        fun _ => .inl trivial
    · exact h.turn hold (h.acquire hfree (by rw [hold]; rfl) rfl) rfl (fun _ => .inl trivial)
        False.elim False.elim
    · exact h.turn hold (h.acquire hfree (by rw [hold]; rfl) rfl) rfl False.elim False.elim
        False.elim
  | notify me hspot =>
    have hme : (l.spot me).notified = .notifying := by
      rw [hspot]
      rfl
    have hnotified := h.notified hspot
    refine hnotified.turn hme (hnotified.owned.keep (by simp only [hme]; rfl)) rfl False.elim
      False.elim fun _ => .inr fun w hw => ?_
    obtain ⟨-, hnew⟩ | ⟨hne, hw⟩ := Transition.update_cases Spot.dozes hw
    · exact hnew
    · -- Whoever is about to wait has the mutex.
      have hstaying := Spot.eq_staying_of_notified hw
      exact hne (h.owned.exclusive (l := ()) (by rw [hstaying]; rfl) (by rw [hspot]; rfl))
  | release me hspot =>
    exact h.turn hspot (h.release (by rw [hspot]; rfl) rfl) rfl False.elim False.elim False.elim
  | count me hspot =>
    exact h.turn hspot (h.owned.keep (by rw [hspot]; rfl)) (add_zero _) (fun _ => .inl trivial)
      False.elim False.elim
  | stay me hspot hflight =>
    exact h.turn hspot (h.owned.keep (by rw [hspot]; rfl)) rfl (fun _ => .inl trivial)
      (fun _ => .inr hflight) False.elim
  | pass me hspot hzero =>
    have hidle := (h.idles me (by rw [hspot]; trivial)).1
    have hmoved : Inv runs initial (l.move me .passing) := h.turn hspot
      (h.owned.keep (by rw [hspot]; rfl)) rfl False.elim False.elim False.elim
    refine hmoved.setPool me (.load me hidle hzero) (fun w hw => Function.update_of_ne hw ..) ?_ ?_
    · simp only [move, Function.update_self]
      exact not_false
    · exact fun hbefore => absurd hzero hbefore
  | wait me hspot =>
    exact h.turn hspot (h.release (by rw [hspot]; rfl) rfl) rfl (fun _ => .inl trivial)
      (fun _ => .inl trivial) False.elim
  | rouse me _ hspot =>
    exact h.turn hspot (h.owned.keep (by rw [hspot]; rfl)) rfl False.elim False.elim False.elim
  | uncount me hspot =>
    rcases hspot with hspot | hspot
    · exact h.turn hspot (h.owned.keep (by rw [hspot]; rfl)) (by simp [Spot.registered]) False.elim
        False.elim False.elim
    · exact h.turn hspot (h.owned.keep (by rw [hspot]; rfl)) (by simp [Spot.registered]) False.elim
        False.elim False.elim

end Inv

/-- The invariant holds in every run. -/
lemma Reachable.inv (h : Reachable runs initial l) : Inv runs initial l := by
  refine Transition.Reachable.invariant (P := Inv runs initial) ?_ ?_ h
  · rintro _ rfl
    exact ⟨Transition.Reachable.initial rfl, fun _ w => by simp [start, Spot.held],
      by simp [start, Spot.registered], fun _ hw => hw.elim, fun _ ⟨_, hw⟩ => hw.elim⟩
  · exact fun l l' _ hl hnext => hnext.elim hl.step hl.park

/-! ## Progress -/

/-- How far the workers are from their loops. -/
def left (l : Lot J O n) : ℕ := ∑ w, (l.spot w).left

/-- A worker at a nearer spot brings the workers closer to their loops. -/
lemma left_update_lt {spot : Fin n → Spot} {old : Spot} (hold : spot me = old)
    (hlt : new.left < old.left) :
    ∑ w, (update spot me new w).left < ∑ w, (spot w).left := by
  have hsum := sum_update spot Spot.left me new
  rw [hold] at hsum
  omega

/-- A step brings the workers closer to their loops, or is one of a loop. -/
lemma Inv.advances (h : Inv runs initial l) (hstep : Step runs rouses l l') :
    l'.pool = l.pool ∧ l'.left < l.left ∨ Pool.Step runs l.pool l'.pool := by
  cases hstep with
  | work me _ hstep => exact .inr hstep
  | load me hspot =>
    refine .inl ⟨rfl, left_update_lt hspot ?_⟩
    split_ifs <;> decide
  | @lock me spot hspot =>
    refine .inl ⟨rfl, left_update_lt rfl ?_⟩
    cases hold : l.spot me <;> rw [hold] at hspot <;> cases hspot <;> decide
  | notify me hspot =>
    have hle : ∑ w, ((l.spot w).notified).left ≤ l.left := Finset.sum_le_sum fun w _ => by
      cases l.spot w <;> decide
    have hme : (l.spot me).notified = .notifying := by
      rw [hspot]
      rfl
    exact .inl ⟨rfl, (left_update_lt hme (by decide)).trans_le hle⟩
  | pass me hspot hzero => exact .inr (.load me (h.idles me (by rw [hspot]; trivial)).1 hzero)
  | uncount me hspot =>
    exact .inl ⟨rfl, hspot.elim (left_update_lt · (by decide)) (left_update_lt · (by decide))⟩
  | release me hspot | count me hspot | stay me hspot | wait me hspot | rouse me _ hspot =>
    exact .inl ⟨rfl, left_update_lt hspot (by decide)⟩

/-- The owner of the mutex has a step to take. -/
lemma exists_step_of_held (hheld : (l.spot me).held = some ()) :
    ∃ l', Step runs rouses l l' ∧ (l.pool.Sound → l'.pool.Sound) := by
  cases hspot : l.spot me with
  | notifying => exact ⟨_, .notify me hspot, id⟩
  | releasing => exact ⟨_, .release me hspot, id⟩
  | locked => exact ⟨_, .count me hspot, id⟩
  | staying => exact ⟨_, .wait me hspot, id⟩
  | passing => exact ⟨_, .uncount me (.inl hspot), id⟩
  | back => exact ⟨_, .uncount me (.inr hspot), id⟩
  | counted =>
    by_cases hzero : l.pool.inFlight = 0
    · refine ⟨_, .pass me hspot hzero, fun hsound => ?_⟩
      exact hsound.update (w := ⟨.leaving, _⟩) not_false rfl
    · exact ⟨_, .stay me hspot hzero, id⟩
  | _ =>
    rw [hspot] at hheld
    cases hheld

/-- As long as some worker is neither in its loop nor waiting, somebody has a step to take. -/
lemma Inv.exists_step_of_awake (h : Inv runs initial l) (hfree : l.spot me ≠ .free)
    (hwaiting : l.spot me ≠ .waiting) :
    ∃ l', Step runs rouses l l' ∧ (l.pool.Sound → l'.pool.Sound) := by
  cases hmutex : l.mutex with
  | some owner => exact exists_step_of_held ((h.owned () owner).mp hmutex)
  | none =>
    have hheld : (l.spot me).held ≠ some () := fun hheld => by
      simpa [hmutex] using (h.owned () me).mpr hheld
    cases hspot : l.spot me with
    | free => exact absurd hspot hfree
    | waiting => exact absurd hspot hwaiting
    | waking => exact ⟨_, .load me hspot, id⟩
    | wakeLocking | finalLocking | parking | woken =>
      exact ⟨_, .lock me (by rw [hspot]; rfl) hmutex, id⟩
    | _ => exact absurd (by rw [hspot]; rfl) hheld

/-- As long as some thread has not ended, somebody has a step to take; a wait need only end without
a notification if a job has panicked. -/
lemma Inv.exists_step (h : Inv runs initial l)
    (htotal : ∀ job, ∃ children out, runs job children out) (hrouses : l.pool.Sound ∨ rouses)
    (hended : ¬l.Ended) : ∃ l', Step runs rouses l l' ∧ (l.pool.Sound → l'.pool.Sound) := by
  by_cases hawake : ∃ w, l.spot w ≠ .free ∧ l.spot w ≠ .waiting
  · obtain ⟨w, hfree, hwaiting⟩ := hawake
    exact h.exists_step_of_awake hfree hwaiting
  push Not at hawake
  by_cases hrouse : rouses ∧ ∃ w, l.spot w = .waiting
  · obtain ⟨hrouses, w, hw⟩ := hrouse
    exact ⟨_, .rouse w hrouses hw, id⟩
  -- Nobody is on the way to notify the others, so the walk is not over.
  have hflight : ∀ w, l.spot w ≠ .free → l.pool.inFlight ≠ 0 := by
    intro w hw hzero
    obtain ⟨v, hv⟩ := h.called hzero ⟨w, by rw [hawake w hw]; trivial⟩
    by_cases hfree : l.spot v = .free
    · exact absurd hv (by rw [hfree]; exact not_false)
    · exact absurd hv (by rw [hawake v hfree]; exact not_false)
  have hrunning : ∃ w, (l.pool.workers w).phase ≠ .returned ∧
      (l.pool.workers w).phase ≠ .panicked := by
    by_contra hall
    push Not at hall
    refine hended fun w => ⟨or_iff_not_imp_left.mpr (hall w), by_contra fun hw => ?_⟩
    obtain ⟨hidle, -⟩ := h.idles w (by rw [hawake w hw]; trivial)
    exact absurd (hall w (by simp [hidle])) (by simp [hidle])
  obtain ⟨me, q, w, hme, hstep, hq, hw⟩ := Pool.exists_turn htotal h.pool.accounted.1
    h.pool.accounted.2 (fun w => l.spot w = .free)
    (fun w hw => ⟨hflight w hw, h.idles w (by rw [hawake w hw]; trivial)⟩)
    (hrouses.imp_right fun hrouses w => by_contra fun hw => hrouse ⟨hrouses, w, hawake w hw⟩)
    hrunning
  refine ⟨_, .work me hme hstep fun v hv => ?_, fun hsound => hsound.update (hw hsound) hq⟩
  rw [hq, Function.update_of_ne hv]

section

variable {key : J → K} {child : K → List K}

/-- What is left of the walk: the nodes to visit, then the steps of the loops, then those about the
`Park`. -/
def Remains (key : J → K) (child : K → List K) (l : Lot J O n) (bound : ℕ ×ₗ ℕ ×ₗ ℕ) : Prop :=
  ∃ later, MUnfolds child (l.pool.pending.map key) later ∧
    bound = toLex (later.card, toLex (l.pool.effort, l.left))

/-- A step leaves less of the walk. -/
lemma Inv.remains (h : Inv runs initial l) (hruns : ∀ {job children out}, runs job children out →
    children.map key = child (key job)) (hstep : Step runs rouses l l') {bound : ℕ ×ₗ ℕ ×ₗ ℕ}
    (hbound : Remains key child l bound) : ∃ bound' < bound, Remains key child l' bound' := by
  obtain ⟨later, hlater, rfl⟩ := hbound
  rcases h.advances hstep with ⟨hpool, hlt⟩ | hstep
  · refine ⟨_, ?_, later, hpool ▸ hlater, rfl⟩
    rw [hpool]
    exact Prod.Lex.toLex_lt_toLex.mpr (.inr ⟨rfl, Prod.Lex.toLex_lt_toLex.mpr (.inr ⟨rfl, hlt⟩)⟩)
  · obtain ⟨later', hlater', hless⟩ := hstep.exists_later hruns hlater
    refine ⟨_, Prod.Lex.toLex_lt_toLex.mpr ?_, later', hlater', rfl⟩
    exact hless.imp_right fun ⟨heq, hlt⟩ => ⟨heq, Prod.Lex.toLex_lt_toLex.mpr (.inl hlt)⟩

/-- Every thread can end, without another panic; a wait need only end without a notification if a
job has panicked already. -/
lemma Inv.exists_run (h : Inv runs initial l)
    (htotal : ∀ job, ∃ children out, runs job children out)
    (hruns : ∀ {job children out}, runs job children out → children.map key = child (key job))
    {visited : List K} (hvisited : Unfolds child (initial.map key) visited)
    (hrouses : l.pool.Sound ∨ rouses) :
    ∃ l', Relation.ReflTransGen (Step runs rouses) l l' ∧ l'.Ended ∧
      (l.pool.Sound → l'.pool.Sound) := by
  obtain ⟨later, hlater⟩ := h.pool.exists_later hruns hvisited
  refine Transition.exists_run_of_variant (P := fun l' bound => Inv runs initial l' ∧
    (l'.pool.Sound ∨ rouses) ∧ (l.pool.Sound → l'.pool.Sound) ∧ Remains key child l' bound)
    ?_ ⟨h, hrouses, id, later, hlater, rfl⟩
  rintro l₁ bound ⟨h₁, hrouses₁, hsound₁, hbound⟩
  by_cases hended : l₁.Ended
  · exact .inl ⟨hended, hsound₁⟩
  · obtain ⟨l₂, hstep, hsound⟩ := h₁.exists_step htotal hrouses₁ hended
    obtain ⟨bound', hlt, hbound'⟩ := h₁.remains hruns hstep hbound
    exact .inr ⟨l₂, bound', hstep, ⟨h₁.step hstep, hrouses₁.imp_left hsound,
      fun h => hsound (hsound₁ h), hbound'⟩, hlt⟩

/-- A run that goes on for ever parks again and again. -/
lemma Inv.exists_park (hruns : ∀ {job children out}, runs job children out →
    children.map key = child (key job)) {visited : List K}
    (hvisited : Unfolds child (initial.map key) visited) {run : ℕ → Lot J O n}
    (h : Inv runs initial (run 0)) (hrun : ∀ i, Next runs (run i) (run (i + 1))) (i : ℕ) :
    ∃ j ≥ i, Park (run j) (run (j + 1)) := by
  have hinv : ∀ j, Inv runs initial (run j) := by
    intro j
    induction j with
    | zero => exact h
    | succ j ih => exact (hrun j).elim ih.step ih.park
  obtain ⟨later, hlater⟩ := (hinv i).pool.exists_later hruns hvisited
  obtain ⟨j, hj, hstop⟩ := Transition.exists_not_step_of_variant
    (P := fun l bound => Inv runs initial l ∧ Remains key child l bound)
    (fun l l' bound ⟨hl, hbound⟩ hstep => by
      obtain ⟨bound', hlt, hbound'⟩ := hl.remains hruns hstep hbound
      exact ⟨bound', hlt, hl.step hstep, hbound'⟩) run ⟨hinv i, later, hlater, rfl⟩
  exact ⟨j, hj, (hrun j).resolve_left hstop⟩

/-- Once every thread has ended, a pool in which no job has panicked has finished. -/
lemma Ended.finished (h : l.Ended) (hsound : l.pool.Sound) : l.Finished := by
  refine ⟨fun w => (h w).1.resolve_right fun hpanicked => hsound w ?_, fun w => (h w).2⟩
  rw [hpanicked]
  trivial

/-- A walk with a `Park` is a walk without one, with one owner of the mutex at a time and the right
count of sleepers.  Once nothing is in flight, whoever waits is about to be notified.  A run that
goes on for ever parks again and again; every thread can still end; and unless a job has panicked
all workers can return, although no wait ends without a notification. -/
theorem parked_walk_ends (htotal : ∀ job, ∃ children out, runs job children out)
    (hruns : ∀ {job children out}, runs job children out → children.map key = child (key job))
    {visited : List K} (hvisited : Unfolds child (initial.map key) visited)
    (h : Reachable runs initial l) :
    Pool.Reachable runs initial l.pool ∧
      (∀ v w, (l.spot v).held = some () → (l.spot w).held = some () → v = w) ∧
      l.sleepers = ∑ w, (l.spot w).registered ∧
      (l.pool.inFlight = 0 → ∀ w, l.spot w = .waiting →
        ∃ v, l.spot v = .finalLocking ∨ l.spot v = .notifying) ∧
      (∀ run : ℕ → Lot J O n, run 0 = l → (∀ i, Next runs (run i) (run (i + 1))) →
        ∀ i, ∃ j ≥ i, Park (run j) (run (j + 1))) ∧
      (∃ l', Relation.ReflTransGen (Step runs True) l l' ∧ l'.Ended) ∧
      (l.pool.Sound → ∃ l', Relation.ReflTransGen (Step runs False) l l' ∧ l'.Finished) := by
  have hinv := h.inv
  refine ⟨hinv.pool, fun v w hv hw => hinv.owned.exclusive hv hw, hinv.sleepers,
    fun hzero w hw => ?_, ?_, ?_, fun hsound => ?_⟩
  · obtain ⟨v, hv⟩ := hinv.called hzero ⟨w, by rw [hw]; trivial⟩
    refine ⟨v, ?_⟩
    cases hspot : l.spot v with
    | finalLocking => exact .inl rfl
    | notifying => exact .inr rfl
    | _ => exact absurd hv (by rw [hspot]; exact not_false)
  · rintro run rfl hrun
    exact hinv.exists_park hruns hvisited hrun
  · obtain ⟨l', hrun, hended, -⟩ := hinv.exists_run htotal hruns hvisited (.inr trivial)
    exact ⟨l', hrun, hended⟩
  · obtain ⟨l', hrun, hended, hsound'⟩ := hinv.exists_run htotal hruns hvisited (.inl hsound)
    exact ⟨l', hrun, hended.finished (hsound' hsound)⟩

/-- One worker waits while the other does the only job, and retires it. -/
lemma exists_sample_wait : ∃ l : Lot ℕ ℕ 2, Reachable Pool.sampleRuns [0] l ∧ l.pool.Sound ∧
    l.pool.inFlight = 0 ∧ l.spot 1 = .waiting := by
  have h0 : Reachable Pool.sampleRuns [0] (start [0] : Lot ℕ ℕ 2) :=
    Transition.Reachable.initial rfl
  have next : ∀ {l l' : Lot ℕ ℕ 2}, Reachable Pool.sampleRuns [0] l →
    Step Pool.sampleRuns True l l' → Reachable Pool.sampleRuns [0] l' := fun h hstep =>
      h.tail (.inl hstep)
  have hother : ∀ {p q : Pool ℕ ℕ 2}, q.workers 1 = p.workers 1 →
      ∀ w ≠ 0, q.workers w = p.workers w := by
    intro p q h w hw
    match w with
    | 0 => exact absurd rfl hw
    | 1 => exact h
  have h1 := next h0 (.work 0 rfl (.stealInjector 0 rfl (show [0] = 0 :: ([] ++ []) from rfl) .rfl)
    (hother rfl))
  have h2 := h1.tail (.inr (.park 1 rfl rfl rfl rfl (by decide)))
  have h3 := next h2 (.lock 1 rfl rfl)
  have h4 := next h3 (.count 1 rfl)
  have h5 := next h4 (.stay 1 rfl (by decide))
  have h6 := next h5 (.wait 1 rfl)
  have h7 := next h6 (.work 0 rfl (.finish 0 rfl ⟨rfl, rfl⟩) (hother rfl))
  have h8 := next h7 (.work 0 rfl (.count 0 rfl) (hother rfl))
  have h9 := next h8 (.work 0 rfl (.retire 0 rfl) (hother rfl))
  refine ⟨_, h9, fun w => ?_, rfl, rfl⟩
  match w with
  | 0 => exact not_false
  | 1 => exact not_false

/-- A worker waits while another is about to notify all, and the walk can still end. -/
theorem parked_walk_ends_sample : ∃ l : Lot ℕ ℕ 2, l.spot 1 = .waiting ∧
    (∃ v, l.spot v = .finalLocking ∨ l.spot v = .notifying) ∧
    ∃ l', Relation.ReflTransGen (Step Pool.sampleRuns False) l l' ∧ l'.Finished := by
  obtain ⟨l, hreach, hsound, hzero, hwaiting⟩ := exists_sample_wait
  have hunfolds : Unfolds (fun job => List.replicate job 0) ([0].map id) [0] := .cons .nil
  obtain ⟨-, -, -, hcalled, -, -, hfinish⟩ := parked_walk_ends (fun _ => ⟨_, _, rfl, rfl⟩)
    (fun hrun => by rw [List.map_id]; exact hrun.1) hunfolds hreach
  exact ⟨l, hwaiting, hcalled hzero 1 hwaiting, hfinish hsound⟩

end

end Lot

end Scap
