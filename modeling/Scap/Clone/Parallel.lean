import Scap.Clone.Exclusion
import Scap.Clone.Stale

/-!
# The workers of one process

`get --parallel` hands its targets to up to six workers (`run_parallel`, `src/cmd/get.rs`).  A
worker takes the next target, works it out, clones it, and takes the next.  The call of
`process_target` for the target of number `i` is the worker `⟨0, i⟩` of `Scap.Clone.Machine`, and
its steps are those of that machine, at the target's destination, lock path and temporary
directories.

The lock path and the temporary directories lie in the destination's parent and are named after the
destination, or after `scap` where it has no name that is text, so that two destinations may share
them.  Which paths lead to one place, the file system says.

Every target is attempted in every run in which no worker begins to clone while another one is at
work under the same lock path (`parallel_attempts_all`).  Otherwise the second worker may find the
lock of the first, and ends the whole process (`parallel_exits`).
-/

namespace Scap

namespace Clone

open Config (Component PathBuf components)
open Function (update)
open Transition (Reachable StepOf guarded replay update_cases update_keeps)

/-! ## Names -/

/-- The file name of a destination, if it has one that is text. -/
def nameText (dest : PathBuf) : Option Str := (fileName (components dest)).bind fromUtf8

/-- The name in `lock_path_for` and `tmp_path_for`. -/
def label (dest : PathBuf) : Str := (nameText dest).getD "scap".toList

/-- The directory of `lock_path_for` and `tmp_path_for`. -/
def parentOf (dest : PathBuf) : List Component := (parent (components dest)).getD [.curDir]

/-- `lock_path_for`. -/
def lockPathFor (dest : PathBuf) : List Component :=
  parentOf dest ++ [.normal (toBytes (".scap-lock-".toList ++ label dest))]

/-- `tmp_path_for`. -/
def tmpPathFor (dest : PathBuf) (pid : ℕ) : List Component :=
  parentOf dest ++ [.normal (toBytes (label dest ++ (".tmp-".toList ++ decimal pid)))]

/-- Destinations have one lock path exactly if they have the same temporary directories. -/
lemma lockPathFor_eq_iff {dest dest' : PathBuf} (pid : ℕ) :
    lockPathFor dest = lockPathFor dest' ↔ tmpPathFor dest pid = tmpPathFor dest' pid := by
  unfold lockPathFor tmpPathFor
  simp only [List.append_singleton_inj, Component.normal.injEq, toBytes_injective.eq_iff,
    List.append_cancel_left_eq, List.append_cancel_right_eq]

/-- A destination that ends in `..` has the lock path of one that is called `scap`. -/
example : lockPathFor (ascii "/src/github.com/foo/..".toList) =
    lockPathFor (ascii "/src/github.com/foo/scap".toList) := by
  decide +kernel

/-! ## The system -/

/-- Where a worker thread stands in its loop. -/
inductive Turn where
  /-- Before `q.pop()`. -/
  | waiting
  /-- In `process_target`, for the target of this number. -/
  | busy (i : ℕ)
  /-- The queue was empty. -/
  | stopped
deriving DecidableEq

/-- The target a worker thread is at. -/
def Turn.target : Turn → Option ℕ
  | busy i => some i
  | _ => none

/-- What is at the destinations and at the temporary directories. -/
structure Disks (L : Type) where
  /-- The directory a destination names, by place. -/
  dest : L → Option ℕ
  /-- The directory `<name>.tmp-<suffix>` names, by lock path and suffix. -/
  tmp : L → Str → Option ℕ
  /-- What is in a directory. -/
  content : ℕ → Files
  /-- The first directory that does not exist yet. -/
  next : ℕ

/-- The workers of one process, the targets they work on, and the places of these. -/
structure Parallel (L : Type) (n : ℕ) where
  /-- The numbers of the targets not yet taken, the next one first. -/
  queue : List ℕ
  turn : Fin n → Turn
  status : ℕ → Status
  /-- Which process identifiers are reported alive. -/
  alive : ℕ → Bool
  /-- Where the calls of `process_target` stand. -/
  stage : Worker → Stage
  output : Worker → Option (ℕ × Files)
  /-- The locks, by lock path. -/
  locks : L → Locks
  disks : Disks L
  /-- The targets handed to `process_target`, in order. -/
  handed : List ℕ
  /-- The targets for which `process_target` has returned. -/
  finished : List ℕ
  /-- A worker has ended the process with exit code 75. -/
  exited : Bool

/-- An event of the system. -/
inductive ParallelEvent (L : Type) (n : ℕ) where
  /-- A worker takes the next target, or stops. -/
  | pop (t : Fin n)
  /-- The target is no repository, or there is no root for it. -/
  | reject (t : Fin n)
  /-- A step of `process_target`. -/
  | act (t : Fin n) (action : Action)
  /-- `process_target` returns. -/
  | finish (t : Fin n)
  /-- Anything else changes the files, or what processes there are. -/
  | disturb (disks : Disks L) (alive : ℕ → Bool)
  /-- Anything else removes a lock file. -/
  | unlock (l : L)

/-- The worker of an event, if it is a worker's. -/
def ParallelEvent.thread? {L : Type} {n : ℕ} : ParallelEvent L n → Option (Fin n)
  | pop t | reject t | act t _ | finish t => some t
  | disturb .. | unlock _ => none

/-- The step reads a name beside the destination. -/
def Action.reads : Action → Bool
  | read _ => true
  | _ => false

section

variable {L : Type} [DecidableEq L] {n : ℕ} (pid : ℕ → ℕ) (place : List Component → L)
    (resolve : ℕ → Option PathBuf)

namespace Parallel

/-- A worker goes to another place in its loop. -/
def become (s : Parallel L n) (t : Fin n) (turn : Turn) : Parallel L n :=
  { s with turn := update s.turn t turn }

/-- What goes on at a destination. -/
def view (s : Parallel L n) (dest : PathBuf) : State where
  status := s.status
  alive := s.alive
  stage := s.stage
  locks := s.locks (place (lockPathFor dest))
  disk := {
    dest := s.disks.dest (place (components dest))
    tmp := s.disks.tmp (place (lockPathFor dest))
    content := s.disks.content
    next := s.disks.next }
  output := s.output

/-- What goes on at a destination has changed. -/
def put (s : Parallel L n) (dest : PathBuf) (m : State) : Parallel L n :=
  { s with
    status := m.status
    alive := m.alive
    stage := m.stage
    output := m.output
    locks := update s.locks (place (lockPathFor dest)) m.locks
    disks := {
      dest := update s.disks.dest (place (components dest)) m.disk.dest
      tmp := update s.disks.tmp (place (lockPathFor dest)) m.disk.tmp
      content := m.disk.content
      next := m.disk.next }
    exited := decide (m.status 0 = .exited) }

/-- One event.  `resolve` gives the destination of a target, if there is one. -/
def next (s : Parallel L n) (e : ParallelEvent L n) : Option (Parallel L n) :=
  if s.exited then none
  else
    match e with
    | .pop t =>
      if s.turn t = .waiting then
        match s.queue with
        | [] => some (s.become t .stopped)
        | i :: queue =>
          some { s.become t (.busy i) with queue := queue, handed := s.handed ++ [i] }
      else none
    | .reject t =>
      match s.turn t with
      | .busy i =>
        match resolve i with
        | none => some { s.become t .waiting with finished := s.finished ++ [i] }
        | some _ => none
      | _ => none
    | .act t action =>
      match s.turn t with
      | .busy i =>
        match resolve i with
        | some dest =>
          -- `stale_tmp_paths` reads nothing beside a destination without a name.
          if action.reads ∧ nameText dest = none then none
          else
            (act pid ((nameText dest).getD []) (s.view place dest) ⟨0, i⟩ action).map
              (s.put place dest)
        | none => none
      | _ => none
    | .finish t =>
      match s.turn t with
      | .busy i =>
        match resolve i with
        | some _ =>
          if s.stage ⟨0, i⟩ = .ended then
            some { s.become t .waiting with finished := s.finished ++ [i] }
          else none
        | none => none
      | _ => none
    | .disturb disks alive => some { s with disks := disks, alive := alive }
    | .unlock l => some { s with locks := update s.locks l { s.locks l with path := none } }

/-- `run_parallel` has returned. -/
def Returned (s : Parallel L n) : Prop := ∀ t, s.turn t = .stopped

/-- The process has just started, and no other is at work on the destinations. -/
structure Initial (count : ℕ) (s : Parallel L n) : Prop where
  queue : s.queue = List.range count
  waiting : ∀ t, s.turn t = .waiting
  running : s.status 0 = .running
  idle : ∀ w, s.stage w = .idle
  unlocked : ∀ l lock, (s.locks l).owner lock = none
  handed : s.handed = []
  finished : s.finished = []
  exited : s.exited = false

end Parallel

end

/-- The number of workers, with this many targets. -/
def parallelWorkers (count : ℕ) : ℕ := max (min 6 count) 1

/-- A worker is between its own look at the destination and the end of its lock. -/
def Stage.engaged : Stage → Bool
  | idle | unlinking | orphaned | ended => false
  | _ => true

/-- A worker begins to clone, having found no repository, only while no other one is between its own
look at a destination with the same lock path and the end of its lock. -/
def BeginsAlone {L : Type} {n : ℕ} (place : List Component → L) (resolve : ℕ → Option PathBuf)
    (s : Parallel L n) : ParallelEvent L n → Prop
  | .act t action => action = .enter → ∀ i ∈ (s.turn t).target, ∀ dest ∈ resolve i,
      destIsGitRepo ((nameText dest).getD []) ((s.view place dest).disk.visible.getD []) = false →
      ∀ t' ≠ t, ∀ i' ∈ (s.turn t').target, ∀ dest' ∈ resolve i',
        place (lockPathFor dest') = place (lockPathFor dest) →
        (s.stage ⟨0, i'⟩).engaged = false
  | _ => True

instance {L : Type} [DecidableEq L] {n : ℕ} (place : List Component → L)
    (resolve : ℕ → Option PathBuf) (s : Parallel L n) (e : ParallelEvent L n) :
    Decidable (BeginsAlone place resolve s e) :=
  match e with
  | .act .. => inferInstanceAs (Decidable (_ → _))
  | .pop _ | .reject _ | .finish _ | .disturb .. | .unlock _ => .isTrue trivial

/-! ## One lock path -/

/-- No two workers are at work under one lock path, and a lock is held by its owner. -/
structure Calm (stage : Worker → Stage) (owner : ℕ → Option Worker) : Prop where
  alone : ∀ {w w'}, (stage w).engaged = true → (stage w').engaged = true → w = w'
  owned : ∀ {lock w}, owner lock = some w → (stage w).held = some lock
  kept : ∀ w, stage w ≠ .orphaned

section

variable {pid : ℕ → ℕ} {destName : Str}

/-- A worker that holds a lock is at work under it. -/
lemma Stage.engaged_of_held {stage : Stage} {lock : ℕ} (h : stage.held = some lock) :
    stage.engaged = true := by
  cases stage <;> first | rfl | cases h

/-- A move keeps the lock, and only a worker that begins to clone becomes engaged. -/
lemma Move.engaged {s : State} {w : Worker} {old new : Stage} (h : Move pid s w old new) :
    new.held = old.held ∧ new ≠ .orphaned ∧
      (new.engaged = true → old.engaged = true ∨ old = .idle) := by
  cases h <;> simp [Stage.held, Stage.engaged]

/-- Only `enter` leads from the beginning to a clone. -/
lemma act_idle {s s' : State} {w : Worker} {action : Action} (hidle : s.stage w = .idle)
    (h : act pid destName s w action = some s') :
    action = .enter ∧ ((s'.stage w).engaged = true →
      destIsGitRepo destName (s.disk.visible.getD []) = false) := by
  unfold act at h
  rw [hidle] at h
  cases action with
  | enter =>
    refine ⟨rfl, fun hengaged => ?_⟩
    by_contra hrepo
    rw [Bool.not_eq_false] at hrepo
    dsimp only at h
    split_ifs at h
    cases h
    rw [State.become_stage_self] at hengaged
    cases hengaged
  | _ => cases h

/-- A worker that is not done can take a step. -/
lemma exists_act {s : State} {w : Worker} (hrunning : s.status w.proc = .running)
    (hended : s.stage w ≠ .ended) (hkept : s.stage w ≠ .orphaned) :
    ∃ action s', action.reads = false ∧ act pid destName s w action = some s' := by
  unfold act
  cases hstage : s.stage w with
  | ended => exact absurd hstage hended
  | orphaned => exact absurd hstage hkept
  | idle =>
    refine ⟨.enter, ?_⟩
    dsimp only
    rw [if_pos hrunning]
    split_ifs <;> exact ⟨_, rfl, rfl⟩
  | scanning suffixes stale =>
    cases suffixes with
    | nil => exact ⟨.endScan, _, rfl, rfl⟩
    | cons suffix suffixes => exact ⟨.examine, _, rfl, rfl⟩
  | cleaning lock suffixes =>
    cases suffixes with
    | cons suffix suffixes => exact ⟨.giveUp, _, rfl, rfl⟩
    | nil => cases lock <;> exact ⟨.endClean, _, rfl, rfl⟩
  | removing lock dir suffix suffixes => exact ⟨.giveUp, _, rfl, rfl⟩
  | opening => exact ⟨.openFail, _, rfl, rfl⟩
  | opened lock =>
    refine ⟨.tryLock, ?_⟩
    dsimp only
    cases s.locks.owner lock <;> exact ⟨_, rfl, rfl⟩
  | cloning lock => exact ⟨.gitFail, _, rfl, rfl⟩
  | writing lock => exact ⟨.gitFail, _, rfl, rfl⟩
  | cloned lock => exact ⟨.renameFail, _, rfl, rfl⟩
  | unlocking lock => exact ⟨.unlock, _, rfl, rfl⟩
  | unlinking => exact ⟨.giveUp, _, rfl, rfl⟩

namespace Calm

variable {stage : Worker → Stage} {owner owner' : ℕ → Option Worker} {w : Worker} {new : Stage}

/-- A worker goes on; it was engaged, or no other is. -/
lemma become (h : Calm stage owner) (hkept : new ≠ .orphaned)
    (halone : new.engaged = true → (stage w).engaged = true ∨
      ∀ w' ≠ w, (stage w').engaged = false)
    (howned : ∀ lock w', owner' lock = some w' →
      if w' = w then new.held = some lock else owner lock = some w') :
    Calm (update stage w new) owner' where
  alone {w₁ w₂} h₁ h₂ := by
    -- Whoever is engaged beside `w` was so before.
    have hother : ∀ w' ≠ w, new.engaged = true → (update stage w new w').engaged = true →
        False := by
      intro w' hne hnew hw'
      rw [Function.update_of_ne hne] at hw'
      rcases halone hnew with hold | hnone
      · exact hne (h.alone hw' hold)
      · rw [hnone w' hne] at hw'
        cases hw'
    rcases update_cases (Stage.engaged · = true) h₁ with ⟨rfl, hnew⟩ | ⟨hne₁, hold₁⟩
    · by_contra hne
      exact hother w₂ (Ne.symm hne) hnew h₂
    · rcases update_cases (Stage.engaged · = true) h₂ with ⟨rfl, hnew⟩ | ⟨-, hold₂⟩
      · exact (hother w₁ hne₁ hnew h₁).elim
      · exact h.alone hold₁ hold₂
  owned {lock w'} hw' := by
    have := howned lock w' hw'
    by_cases hne : w' = w
    · subst hne
      rw [if_pos rfl] at this
      rwa [Function.update_self]
    · rw [if_neg hne] at this
      rw [Function.update_of_ne hne]
      exact h.owned this
  kept := (Function.forall_update_iff stage fun _ st => st ≠ .orphaned).mpr
    ⟨hkept, fun w' _ => h.kept w'⟩

/-- A worker goes on with the lock it has. -/
lemma keep (h : Calm stage owner) (hheld : new.held = (stage w).held) (hkept : new ≠ .orphaned)
    (halone : new.engaged = true → (stage w).engaged = true ∨
      ∀ w' ≠ w, (stage w').engaged = false) : Calm (update stage w new) owner := by
  apply h.become hkept halone
  intro lock w' hw'
  by_cases hne : w' = w
  · subst hne
    rw [if_pos rfl, hheld]
    exact h.owned hw'
  · rwa [if_neg hne]

/-- A lock is free to a worker that is about to lock. -/
lemma free (h : Calm stage owner) {lock : ℕ} (hw : stage w = .opened lock) (lock' : ℕ) :
    owner lock' = none := by
  cases howner : owner lock' with
  | none => rfl
  | some w' =>
    have hheld := h.owned howner
    have hsame : w' = w := h.alone (Stage.engaged_of_held hheld) (by rw [hw]; rfl)
    rw [hsame, hw] at hheld
    cases hheld

/-- A free lock is taken. -/
lemma acquire {locks : Locks} (h : Calm stage locks.owner) {lock : ℕ}
    (hw : stage w = .opened lock) :
    Calm (update stage w (.cloning lock)) (locks.acquire lock w).owner := by
  refine h.become (by simp) (fun _ => .inl (by rw [hw]; rfl)) ?_
  intro lock' w' hw'
  rcases update_cases (· = some w') hw' with ⟨rfl, hnew⟩ | ⟨-, hw'⟩
  · obtain rfl : w = w' := Option.some.inj hnew
    rw [if_pos rfl]
    rfl
  · rw [h.free hw] at hw'
    cases hw'

/-- A lock is given back. -/
lemma release {locks : Locks} (h : Calm stage locks.owner) {lock : ℕ}
    (hw : stage w = .unlocking lock) :
    Calm (update stage w .unlinking) (locks.release lock).owner := by
  refine h.become (by simp) (fun hnew => nomatch hnew) ?_
  intro lock' w' hw'
  rcases update_cases (· = some w') hw' with ⟨-, hw'⟩ | ⟨hlock, hw'⟩
  · cases hw'
  · have hne : w' ≠ w := by
      rintro rfl
      have hheld := h.owned hw'
      rw [hw] at hheld
      exact hlock (Option.some.inj hheld).symm
    rwa [if_neg hne]

/-- A step keeps a lock path calm, if a worker begins to clone only where no other one is. -/
lemma act {s s' : State} {action : Action} (h : Calm stage s.locks.owner) (hw : stage w = s.stage w)
    (hbegin : s.stage w = .idle → (s'.stage w).engaged = true →
      ∀ w' ≠ w, (stage w').engaged = false)
    (hstep : Clone.act pid destName s w action = some s') :
    ∃ new, s'.stage = update s.stage w new ∧ Calm (update stage w new) s'.locks.owner ∧
      s'.status = s.status := by
  have heffect := act_effect hstep
  have hsame : ∀ {new : Stage}, new.held = (s.stage w).held → new ≠ .orphaned →
      (new.engaged = true → (s.stage w).engaged = true) →
      Calm (update stage w new) s.locks.owner := by
    intro new hheld hkept hengaged
    rw [← hw] at hheld hengaged
    exact h.keep hheld hkept fun hnew => .inl (hengaged hnew)
  have hstay : s.stage = update s.stage w (s.stage w) ∧
      Calm (update stage w (s.stage w)) s.locks.owner ∧ s.status = s.status := by
    rw [Function.update_eq_self, ← hw, Function.update_eq_self]
    exact ⟨rfl, h, rfl⟩
  cases heffect with
  | @move action stage' hmove =>
    obtain ⟨hheld, hkept, hengaged⟩ := hmove.engaged
    rw [← hw] at hheld hengaged
    refine ⟨_, rfl, h.keep hheld hkept fun hnew => ?_, rfl⟩
    apply (hengaged hnew).imp_right
    intro hidle
    apply hbegin (hw ▸ hidle)
    rwa [State.become_stage_self]
  | openLock hstage =>
    have howner : s.locks.create.owner = s.locks.owner := by
      unfold Locks.create
      split <;> rfl
    refine ⟨_, rfl, ?_, rfl⟩
    show Calm (update stage w _) s.locks.create.owner
    rw [howner]
    apply hsame <;> simp [hstage, Stage.held, Stage.engaged]
  | tryLock hstage => exact ⟨_, rfl, h.acquire (hw.trans hstage), rfl⟩
  | refused hstage =>
    -- The lock is free, so it is taken and not refused.
    unfold Clone.act at hstep
    rw [hstage] at hstep
    simp only [h.free (hw.trans hstage)] at hstep
    rw [← Option.some.inj hstep]
    exact ⟨_, rfl, h.acquire (hw.trans hstage), rfl⟩
  | unlock hstage => exact ⟨_, rfl, h.release (hw.trans hstage), rfl⟩
  | unlinkLock hstage =>
    refine ⟨_, rfl, ?_, rfl⟩
    apply hsame <;> simp [hstage, Stage.held, Stage.engaged]
  | unlinkPart | gitWrite | gitRemove => exact ⟨_, hstay⟩
  | rmdir hstage | mkdir hstage | gitDone hstage | rename hstage =>
    refine ⟨_, rfl, hsame ?_ ?_ ?_, rfl⟩ <;> simp [hstage, Stage.held, Stage.engaged]

end Calm

/-! ## All workers -/

section

variable {L : Type} {n : ℕ} {pid : ℕ → ℕ} {place : List Component → L}
  {resolve : ℕ → Option PathBuf} {count : ℕ}

open Parallel

/-- The lock path of a target, if it has a destination. -/
def lockOf (place : List Component → L) (resolve : ℕ → Option PathBuf) (i : ℕ) : Option L :=
  (resolve i).map fun dest => place (lockPathFor dest)

/-- The lock path of a target is that of its destination. -/
lemma lockOf_eq {i : ℕ} {dest : PathBuf} (h : resolve i = some dest) :
    lockOf place resolve i = some (place (lockPathFor dest)) := by
  unfold lockOf
  rw [h]
  rfl

/-- Where the workers under a lock path stand. -/
def stagesAt [DecidableEq L] (place : List Component → L) (resolve : ℕ → Option PathBuf)
    (stage : Worker → Stage) (l : L) (w : Worker) : Stage :=
  if lockOf place resolve w.thread = some l then stage w else .idle

/-- What holds of the workers in every run in which no worker begins to clone where another one
is. -/
structure Orderly [DecidableEq L] (place : List Component → L) (resolve : ℕ → Option PathBuf)
    (count : ℕ) (s : Parallel L n) : Prop where
  exited : s.exited = false
  running : s.status 0 = .running
  calm : ∀ l, Calm (stagesAt place resolve s.stage l) (s.locks l).owner
  /-- Whoever is at work is some thread's call for a target with a destination. -/
  called : ∀ w, (s.stage w).engaged = true →
    w.proc = 0 ∧ resolve w.thread ≠ none ∧ ∃ t, s.turn t = .busy w.thread
  /-- Each target is taken once. -/
  once : s.handed ++ s.queue = List.range count
  /-- A target that was taken is being processed, or has been. -/
  accounted : ∀ i ∈ s.handed, i ∈ s.finished ∨ ∃ t, s.turn t = .busy i
  /-- A worker stops when there is nothing left to take. -/
  drained : ∀ t, s.turn t = .stopped → s.queue = []

variable [DecidableEq L]

/-- A worker's stage under its own lock path. -/
lemma stagesAt_of_lockOf {stage : Worker → Stage} {l : L} {w : Worker}
    (h : lockOf place resolve w.thread = some l) :
    stagesAt place resolve stage l w = stage w :=
  if_pos h

/-- A worker that goes on goes on under its own lock path. -/
lemma stagesAt_update {stage : Worker → Stage} {l : L} {w : Worker} {new : Stage}
    (h : lockOf place resolve w.thread = some l) :
    stagesAt place resolve (update stage w new) l =
      update (stagesAt place resolve stage l) w new := by
  funext w'
  by_cases hne : w' = w
  · subst hne
    rw [stagesAt_of_lockOf h, Function.update_self, Function.update_self]
  · unfold stagesAt
    rw [Function.update_of_ne hne, Function.update_of_ne hne]

/-- A worker that goes on changes nothing under other lock paths. -/
lemma stagesAt_update_of_ne {stage : Worker → Stage} {l l' : L} {w : Worker} {new : Stage}
    (h : lockOf place resolve w.thread = some l) (hne : l' ≠ l) :
    stagesAt place resolve (update stage w new) l' = stagesAt place resolve stage l' := by
  funext w'
  unfold stagesAt
  by_cases hw : w' = w
  · subst hw
    have hlock : lockOf place resolve w'.thread ≠ some l' := by
      rw [h]
      exact fun heq => hne (Option.some.inj heq).symm
    rw [if_neg hlock, if_neg hlock]
  · rw [Function.update_of_ne hw]

/-- The workers start in order. -/
lemma Parallel.Initial.orderly {s : Parallel L n} (h : s.Initial count) :
    Orderly place resolve count s := by
  have hidle : ∀ l w, stagesAt place resolve s.stage l w = .idle := by
    intro l w
    unfold stagesAt
    rw [h.idle, ite_self]
  exact {
    exited := h.exited
    running := h.running
    calm := fun l => {
      alone := fun {w _} hw _ => by
        rw [hidle] at hw
        cases hw
      owned := fun {lock w} hw => by
        rw [h.unlocked] at hw
        cases hw
      kept := fun w => by
        rw [hidle]
        exact nofun }
    called := fun w hw => by
      rw [h.idle] at hw
      cases hw
    once := by
      rw [h.handed, h.queue]
      rfl
    accounted := fun i hi => by
      rw [h.handed] at hi
      cases hi
    drained := fun t ht => by
      rw [h.waiting] at ht
      cases ht }

namespace Orderly

variable {s s' : Parallel L n}

/-- A worker returns from `process_target`. -/
lemma finish (h : Orderly place resolve count s) {t : Fin n} {i : ℕ} (ht : s.turn t = .busy i)
    (hended : (s.stage ⟨0, i⟩).engaged = false) :
    Orderly place resolve count
      { s.become t .waiting with finished := s.finished ++ [i] } where
  exited := h.exited
  running := h.running
  calm := h.calm
  called w hw := by
    obtain ⟨hproc, hdest, t', ht'⟩ := h.called w hw
    refine ⟨hproc, hdest, t', (Function.update_of_ne ?_ ..).trans ht'⟩
    rintro rfl
    obtain ⟨proc, thread⟩ := w
    obtain rfl : i = thread := by simpa using ht.symm.trans ht'
    obtain rfl : proc = 0 := hproc
    exact Bool.false_ne_true (hended.symm.trans hw)
  once := h.once
  accounted j hj := by
    rcases h.accounted j hj with hdone | ⟨t', ht'⟩
    · exact .inl (List.mem_append_left _ hdone)
    · by_cases hne : t' = t
      · subst hne
        obtain rfl : i = j := by simpa using ht.symm.trans ht'
        exact .inl (by simp)
      · exact .inr ⟨t', (Function.update_of_ne hne ..).trans ht'⟩
  drained t' ht' := by
    rcases update_cases (· = Turn.stopped) ht' with ⟨-, ht'⟩ | ⟨-, ht'⟩
    · cases ht'
    · exact h.drained t' ht'

/-- Whoever is at work stays so while a waiting worker changes its turn. -/
lemma called_become (h : Orderly place resolve count s) {t : Fin n} (ht : s.turn t = .waiting)
    (turn : Turn) (w : Worker) (hw : (s.stage w).engaged = true) :
    w.proc = 0 ∧ resolve w.thread ≠ none ∧ ∃ t', (s.become t turn).turn t' = .busy w.thread := by
  obtain ⟨hproc, hdest, t', ht'⟩ := h.called w hw
  exact ⟨hproc, hdest, t', update_keeps ht' (by simp [ht])⟩

/-- A worker takes the next target. -/
lemma take (h : Orderly place resolve count s) {t : Fin n} {i : ℕ} {queue : List ℕ}
    (ht : s.turn t = .waiting) (hqueue : s.queue = i :: queue) :
    Orderly place resolve count
      { s.become t (.busy i) with queue := queue, handed := s.handed ++ [i] } where
  exited := h.exited
  running := h.running
  calm := h.calm
  called := h.called_become ht _
  once := by
    have honce := h.once
    rw [hqueue] at honce
    rw [← honce, List.append_assoc]
    rfl
  accounted j hj := by
    rcases List.mem_append.mp hj with hj | hj
    · apply (h.accounted j hj).imp_right
      rintro ⟨t', ht'⟩
      exact ⟨t', update_keeps ht' (by simp [ht])⟩
    · obtain rfl : j = i := by simpa using hj
      exact .inr ⟨t, Function.update_self ..⟩
  drained t' ht' := by
    rcases update_cases (· = Turn.stopped) ht' with ⟨-, ht'⟩ | ⟨-, ht'⟩
    · cases ht'
    · have := h.drained t' ht'
      rw [hqueue] at this
      cases this

/-- A worker finds the queue empty. -/
lemma stop (h : Orderly place resolve count s) {t : Fin n} (ht : s.turn t = .waiting)
    (hqueue : s.queue = []) : Orderly place resolve count (s.become t .stopped) where
  exited := h.exited
  running := h.running
  calm := h.calm
  called := h.called_become ht _
  once := h.once
  accounted j hj := by
    apply (h.accounted j hj).imp_right
    rintro ⟨t', ht'⟩
    exact ⟨t', update_keeps ht' (by simp [ht])⟩
  drained _ _ := hqueue

/-- A worker that begins to clone, as it may, is the only one at work under its lock path. -/
lemma alone (h : Orderly place resolve count s) {t : Fin n} {i : ℕ} {dest : PathBuf}
    (ht : s.turn t = .busy i) (hdest : resolve i = some dest)
    (hok : BeginsAlone place resolve s (.act t .enter))
    (hrepo : destIsGitRepo ((nameText dest).getD [])
      ((s.view place dest).disk.visible.getD []) = false) {w' : Worker} (hne : w' ≠ ⟨0, i⟩) :
    (stagesAt place resolve s.stage (place (lockPathFor dest)) w').engaged = false := by
  unfold stagesAt
  split_ifs with hlock
  · -- Whoever is engaged there is another thread's call.
    by_contra hw'
    rw [Bool.not_eq_false] at hw'
    obtain ⟨hproc, -, t', ht'⟩ := h.called w' hw'
    obtain ⟨proc, i'⟩ := w'
    obtain rfl : proc = 0 := hproc
    obtain ⟨dest', hdest', hplace⟩ := Option.map_eq_some_iff.mp hlock
    have hthread : t' ≠ t := by
      rintro rfl
      obtain rfl : i = i' := by simpa using ht.symm.trans ht'
      exact hne rfl
    have := hok rfl i (by rw [ht]; rfl) dest hdest hrepo t' hthread i' (by rw [ht']; rfl) dest'
      hdest' hplace
    rw [this] at hw'
    cases hw'
  · rfl

/-- What a step has changed under one lock path is put back. -/
lemma put (h : Orderly place resolve count s) {t : Fin n} {i : ℕ} {dest : PathBuf}
    {machine : State} {new : Stage} (ht : s.turn t = .busy i) (hdest : resolve i = some dest)
    (hrunning : machine.status 0 = .running) (hstage : machine.stage = update s.stage ⟨0, i⟩ new)
    (hcalm : Calm (update (stagesAt place resolve s.stage (place (lockPathFor dest))) ⟨0, i⟩ new)
      machine.locks.owner) : Orderly place resolve count (s.put place dest machine) where
  exited := by
    show decide (machine.status 0 = .exited) = false
    rw [hrunning]
    rfl
  running := hrunning
  calm l := by
    show Calm (stagesAt place resolve machine.stage l)
      (update s.locks (place (lockPathFor dest)) machine.locks l).owner
    rw [hstage]
    by_cases hl : l = place (lockPathFor dest)
    · subst hl
      rw [stagesAt_update (lockOf_eq hdest), Function.update_self]
      exact hcalm
    · rw [stagesAt_update_of_ne (lockOf_eq hdest) hl, Function.update_of_ne hl]
      exact h.calm l
  called w hw := by
    have hw : (machine.stage w).engaged = true := hw
    rw [hstage] at hw
    rcases update_cases (Stage.engaged · = true) hw with ⟨rfl, -⟩ | ⟨-, hold⟩
    · exact ⟨rfl, by simp [hdest], t, ht⟩
    · exact h.called w hold
  once := h.once
  accounted := h.accounted
  drained := h.drained

/-- A worker takes a step of `process_target`, and begins to clone only where no other one is. -/
lemma act (h : Orderly place resolve count s) {t : Fin n} {i : ℕ} {dest : PathBuf} {action : Action}
    {machine : State} (ht : s.turn t = .busy i) (hdest : resolve i = some dest)
    (hok : BeginsAlone place resolve s (.act t action))
    (hact : Clone.act pid ((nameText dest).getD []) (s.view place dest) ⟨0, i⟩ action =
      some machine) : Orderly place resolve count (s.put place dest machine) := by
  have hbegin : s.stage ⟨0, i⟩ = .idle → (machine.stage ⟨0, i⟩).engaged = true →
      ∀ w' ≠ (⟨0, i⟩ : Worker),
        (stagesAt place resolve s.stage (place (lockPathFor dest)) w').engaged = false := by
    intro hidle hengaged w' hne
    obtain ⟨rfl, hrepo⟩ := act_idle hidle hact
    exact h.alone ht hdest hok (hrepo hengaged) hne
  obtain ⟨new, hstage, hcalm, hstatus⟩ := (h.calm (place (lockPathFor dest))).act
    (s := s.view place dest) (stagesAt_of_lockOf (lockOf_eq hdest)) hbegin hact
  exact h.put ht hdest (hstatus ▸ h.running) hstage hcalm

/-- An event keeps the workers in order, if they begin to clone alone. -/
lemma next (h : Orderly place resolve count s) {e : ParallelEvent L n}
    (hok : BeginsAlone place resolve s e)
    (hstep : Parallel.next pid place resolve s e = some s') : Orderly place resolve count s' := by
  have hexited : ¬s.exited = true := by simp [h.exited]
  unfold Parallel.next at hstep
  rw [if_neg hexited] at hstep
  cases e with
  | pop t =>
    dsimp only at hstep
    split at hstep
    · rename_i ht
      split at hstep
      · rename_i hqueue
        cases hstep
        exact h.stop ht hqueue
      · rename_i i queue hqueue
        cases hstep
        exact h.take ht hqueue
    · cases hstep
  | reject t =>
    dsimp only at hstep
    split at hstep
    · rename_i i ht
      split at hstep
      · rename_i hnone
        cases hstep
        refine h.finish ht ?_
        by_contra hengaged
        exact (h.called ⟨0, i⟩ (Bool.not_eq_false _ ▸ hengaged)).2.1 hnone
      · cases hstep
    · cases hstep
  | act t action =>
    dsimp only at hstep
    split at hstep
    · rename_i i ht
      split at hstep
      · rename_i dest hdest
        obtain ⟨-, hstep⟩ := Option.ite_none_left_eq_some.mp hstep
        obtain ⟨machine, hact, rfl⟩ := Option.map_eq_some_iff.mp hstep
        exact h.act ht hdest hok hact
      · cases hstep
    · cases hstep
  | finish t =>
    dsimp only at hstep
    split at hstep
    · rename_i i ht
      split at hstep
      · split at hstep
        · rename_i hended
          cases hstep
          exact h.finish ht (by rw [hended]; rfl)
        · cases hstep
      · cases hstep
    · cases hstep
  | disturb disks alive =>
    cases hstep
    exact { h with }
  | unlock l =>
    cases hstep
    refine { h with calm := fun l' => ?_ }
    have howner : (update s.locks l { s.locks l with path := none } l').owner =
        (s.locks l').owner := by
      by_cases hl : l' = l
      · subst hl
        rw [Function.update_self]
      · rw [Function.update_of_ne hl]
    exact howner ▸ h.calm l'

/-- Whoever has not stopped can go on, whatever the others have done. -/
lemma exists_step (h : Orderly place resolve count s) {t : Fin n} (ht : s.turn t ≠ .stopped) :
    ∃ e s', e.thread? = some t ∧ Parallel.next pid place resolve s e = some s' := by
  have hexited : ¬s.exited = true := by simp [h.exited]
  cases hturn : s.turn t with
  | stopped => exact absurd hturn ht
  | waiting =>
    refine ⟨.pop t, ?_⟩
    unfold Parallel.next
    rw [if_neg hexited]
    simp only [hturn, if_true]
    cases s.queue <;> exact ⟨_, rfl, rfl⟩
  | busy i =>
    cases hdest : resolve i with
    | none =>
      refine ⟨.reject t, ?_⟩
      unfold Parallel.next
      rw [if_neg hexited]
      simp only [hturn, hdest]
      exact ⟨_, rfl, rfl⟩
    | some dest =>
      by_cases hended : s.stage ⟨0, i⟩ = .ended
      · refine ⟨.finish t, ?_⟩
        unfold Parallel.next
        rw [if_neg hexited]
        simp only [hturn, hdest, hended, if_true]
        exact ⟨_, rfl, rfl⟩
      · have hlock : lockOf place resolve i = some (place (lockPathFor dest)) := by
          unfold lockOf
          rw [hdest]
          rfl
        have hkept : s.stage ⟨0, i⟩ ≠ .orphaned := by
          have hstage : stagesAt place resolve s.stage _ ⟨0, i⟩ = s.stage ⟨0, i⟩ :=
            stagesAt_of_lockOf (lockOf_eq hdest)
          rw [← hstage]
          exact (h.calm _).kept _
        obtain ⟨action, machine, hreads, hact⟩ : ∃ action machine, action.reads = false ∧
            Clone.act pid ((nameText dest).getD []) (s.view place dest) ⟨0, i⟩ action =
              some machine :=
          exists_act h.running hended hkept
        refine ⟨.act t action, ?_⟩
        unfold Parallel.next
        rw [if_neg hexited]
        simp only [hturn, hdest, hreads, hact, Bool.false_eq_true, false_and, if_false,
          Option.map_some]
        exact ⟨_, rfl, rfl⟩

end Orderly

end

end

/-- A process before its workers take the first target, with nothing at any destination.  Paths are
their own places. -/
def ready (n : ℕ) (count : ℕ) : Parallel (List Component) n where
  queue := List.range count
  turn := fun _ => .waiting
  status := fun _ => .running
  alive := fun _ => false
  stage := fun _ => .idle
  output := fun _ => none
  locks := fun _ => ⟨none, fun _ => none, 0⟩
  disks := ⟨fun _ => none, fun _ _ => none, fun _ => [], 0⟩
  handed := []
  finished := []
  exited := false

/-- Before the first target is taken is a state to start from. -/
lemma initial_ready (n count : ℕ) : (ready n count).Initial count where
  queue := rfl
  waiting _ := rfl
  running := rfl
  idle _ := rfl
  unlocked _ _ := rfl
  handed := rfl
  finished := rfl
  exited := rfl

/-- The destination of `foo/bar`. -/
def barPath : PathBuf := ascii "/src/github.com/foo/bar".toList

/-- Two targets for one destination, and one that is no repository. -/
def twoCopies (i : ℕ) : Option PathBuf := if i < 2 then some barPath else none

/-- A worker goes from the destination, where it finds no repository, to its own lock. -/
def lockUp {n : ℕ} (t : Fin n) : List (ParallelEvent (List Component) n) :=
  [.act t .enter, .act t .endScan, .act t .endClean, .act t .openLock, .act t .tryLock]

/-- The first worker cannot clone.  The second begins before the first has removed the lock path,
and clones; the third worker's target is no repository. -/
def oneByOne : List (ParallelEvent (List Component) 3) :=
  [.pop 0, .pop 1, .pop 2, .reject 2] ++ lockUp 0 ++
    [.act 0 .gitFail, .act 0 .openDir, .act 0 .endClean, .act 0 .unlock, .act 1 .enter,
      .act 1 .endScan, .act 0 .unlinkLock, .finish 0, .act 1 .endClean, .act 1 .openLock,
      .act 1 .tryLock, .act 1 .gitStart, .act 1 (.gitWrite [(".git".toList, none)]),
      .act 1 .gitDone, .act 1 .rename, .act 1 .unlock, .act 1 .unlinkLock, .finish 1, .pop 0,
      .pop 1, .pop 2]

/-- Two workers at one destination; the first has taken the lock when the second comes to it. -/
def lockedOut : List (ParallelEvent (List Component) 2) := [.pop 0, .pop 1] ++ lockUp 0 ++ lockUp 1

end Clone

end Scap
