import Scap.Clone.Machine

/-!
# One clone at a time

At most one worker holds a lock on the destination (`at_most_one_held`), in every run in which the
lock path is removed only while no other worker has the lock file it names open, with the lock still
to take or held.  Without that condition the lock path may be removed under a worker that has just
locked the file it named, and the next one to come makes and locks another file (`two_held`).
-/

namespace Scap

namespace Clone

open Function (update)
open Transition (Reachable StepOf replay replay_append_eq_some_iff replay_cons_eq_some_iff
  update_cases update_keeps)

/-- The lock path is removed only while no other worker has the lock file it names open, with the
lock still to take or held. -/
def UnlinksAlone (s : State) : Event → Prop
  | .act w .unlinkLock => ∀ w' ≠ w, ∀ lock, s.locks.path = some lock → (s.stage w').lock ≠ some lock
  | _ => True

/-- What keeps two workers from holding a lock: whoever holds one is its owner, and every lock file
open is the one the lock path names. -/
structure Exclusive (stage : Worker → Stage) (locks : Locks) : Prop where
  owned : ∀ {w lock}, (stage w).held = some lock → locks.owner lock = some w
  named : ∀ {w lock}, (stage w).lock = some lock → locks.path = some lock

/-! ## Stages and locks -/

/-- A lock held is a lock file open. -/
lemma Stage.lock_of_held {stage : Stage} {lock : ℕ} (h : stage.held = some lock) :
    stage.lock = some lock := by
  cases stage <;> first | exact h | cases h

/-- A worker that is gone has no lock. -/
@[simp] lemma Stage.lock_abandon (stage : Stage) : stage.abandon.lock = none := by
  cases stage <;> rfl

/-- A worker that is gone holds no lock. -/
@[simp] lemma Stage.held_abandon (stage : Stage) : stage.abandon.held = none := by
  cases stage <;> rfl

namespace Exclusive

variable {stage : Worker → Stage} {locks : Locks} {w : Worker} {new : Stage}

/-- Two workers that hold a lock are one. -/
lemma unique (h : Exclusive stage locks) {w' : Worker} (hw : (stage w).held ≠ none)
    (hw' : (stage w').held ≠ none) : w = w' := by
  obtain ⟨lock, hlock⟩ := Option.ne_none_iff_exists'.mp hw
  obtain ⟨lock', hlock'⟩ := Option.ne_none_iff_exists'.mp hw'
  have hpath := h.named (Stage.lock_of_held hlock)
  have hpath' := h.named (Stage.lock_of_held hlock')
  obtain rfl : lock = lock' := Option.some.inj (hpath.symm.trans hpath')
  exact Option.some.inj ((h.owned hlock).symm.trans (h.owned hlock'))

/-- A worker moves on with the lock it has, or without. -/
lemma become (h : Exclusive stage locks)
    (hheld : ∀ lock, new.held = some lock → (stage w).held = some lock)
    (hlock : ∀ lock, new.lock = some lock → (stage w).lock = some lock) :
    Exclusive (update stage w new) locks where
  owned {w' lock} hw' := by
    rcases update_cases (Stage.held · = some lock) hw' with ⟨rfl, hnew⟩ | ⟨-, hw'⟩
    · exact h.owned (hheld lock hnew)
    · exact h.owned hw'
  named {w' lock} hw' := by
    rcases update_cases (Stage.lock · = some lock) hw' with ⟨rfl, hnew⟩ | ⟨-, hw'⟩
    · exact h.named (hlock lock hnew)
    · exact h.named hw'

/-- The lock path is opened.  If that makes a new lock file, no worker has one open. -/
lemma openLock (h : Exclusive stage locks) :
    Exclusive (update stage w (.opened locks.opened)) locks.create where
  owned {w' lock} hw' := by
    have howner : locks.create.owner = locks.owner := by
      unfold Locks.create
      split <;> rfl
    rw [howner]
    rcases update_cases (Stage.held · = some lock) hw' with ⟨-, hw'⟩ | ⟨-, hw'⟩
    · cases hw'
    · exact h.owned hw'
  named {w' lock} hw' := by
    have hcreate : locks.create.path = some locks.opened := by
      unfold Locks.create Locks.opened
      cases hpath : locks.path <;> simp [hpath]
    rw [hcreate]
    rcases update_cases (Stage.lock · = some lock) hw' with ⟨-, hw'⟩ | ⟨-, hw'⟩
    · exact hw'
    · rw [Locks.opened, h.named hw']
      rfl

/-- A free lock is taken. -/
lemma tryLock (h : Exclusive stage locks) {lock : ℕ} (hw : stage w = .opened lock)
    (hfree : locks.owner lock = none) :
    Exclusive (update stage w (.cloning lock)) (locks.acquire lock w) where
  owned {w' lock'} hw' := by
    unfold Locks.acquire
    rcases update_cases (Stage.held · = some lock') hw' with ⟨rfl, hnew⟩ | ⟨-, hw'⟩
    · obtain rfl : lock = lock' := Option.some.inj hnew
      exact Function.update_self ..
    · exact update_keeps (h.owned hw') (by simp [hfree])
  named {w' lock'} hw' := by
    rcases update_cases (Stage.lock · = some lock') hw' with ⟨rfl, hnew⟩ | ⟨-, hw'⟩
    · apply h.named (w := w')
      rw [hw]
      exact hnew
    · exact h.named hw'

/-- A lock is given back. -/
lemma unlock (h : Exclusive stage locks) {lock : ℕ} (hw : (stage w).held = some lock) :
    Exclusive (update stage w .unlinking) (locks.release lock) where
  owned {w' lock'} hw' := by
    unfold Locks.release
    rcases update_cases (Stage.held · = some lock') hw' with ⟨-, hw'⟩ | ⟨hne, hw'⟩
    · cases hw'
    · exact update_keeps (h.owned hw') (by simp [h.owned hw, Ne.symm hne])
  named {w' lock'} hw' := by
    rcases update_cases (Stage.lock · = some lock') hw' with ⟨-, hw'⟩ | ⟨-, hw'⟩
    · cases hw'
    · exact h.named hw'

/-- The lock path is removed while no other worker has the lock file it names open. -/
lemma unlinkLock (h : Exclusive stage locks)
    (halone : ∀ w' ≠ w, ∀ lock, locks.path = some lock → (stage w').lock ≠ some lock) :
    Exclusive (update stage w .ended) { locks with path := none } where
  owned {w' lock} hw' := by
    rcases update_cases (Stage.held · = some lock) hw' with ⟨-, hw'⟩ | ⟨-, hw'⟩
    · cases hw'
    · exact h.owned hw'
  named {w' lock} hw' := by
    rcases update_cases (Stage.lock · = some lock) hw' with ⟨-, hw'⟩ | ⟨hne, hw'⟩
    · cases hw'
    · exact absurd hw' (halone w' hne lock (h.named hw'))

/-- A process is gone, and its locks with it. -/
lemma exit (h : Exclusive stage locks) (p : ℕ) :
    Exclusive (fun w => if w.proc = p then (stage w).abandon else stage w)
      (locks.releaseAll p) where
  owned {w lock} hw := by
    by_cases hp : w.proc = p
    · simp [hp] at hw
    · rw [if_neg hp] at hw
      simp [Locks.releaseAll, h.owned hw, hp]
  named {w lock} hw := by
    by_cases hp : w.proc = p
    · simp [hp] at hw
    · rw [if_neg hp] at hw
      exact h.named hw

end Exclusive

/-! ## Runs -/

section

variable {pid : ℕ → ℕ} {destName : Str}

/-- A move keeps the lock a worker has, or drops it. -/
lemma Move.lock {s : State} {w : Worker} {old new : Stage} (h : Move pid s w old new) :
    (∀ lock, new.held = some lock → old.held = some lock) ∧
      (∀ lock, new.lock = some lock → old.lock = some lock) := by
  cases h <;> exact ⟨fun _ h => h, fun _ h => h⟩

/-- A step of a worker keeps other workers from holding a lock at the same time. -/
lemma Exclusive.act {s s' : State} {w : Worker} {action : Action} (h : Exclusive s.stage s.locks)
    (hok : UnlinksAlone s (.act w action)) (hstep : Effect pid s w action s') :
    Exclusive s'.stage s'.locks := by
  cases hstep with
  | move hmove => exact h.become hmove.lock.1 hmove.lock.2
  | openLock => exact h.openLock
  | tryLock hstage hfree => exact h.tryLock hstage hfree
  | refused => exact h.exit w.proc
  | unlock hstage => exact h.unlock (by rw [hstage]; rfl)
  | unlinkLock => exact h.unlinkLock hok
  | unlinkPart | gitWrite | gitRemove => exact h
  | rmdir hstage | mkdir hstage | gitDone hstage | rename hstage =>
    apply h.become <;> rw [hstage] <;> exact fun _ h => h

/-- An event keeps two workers from holding a lock. -/
lemma Exclusive.next {s s' : State} {e : Event} (h : Exclusive s.stage s.locks)
    (hok : UnlinksAlone s e) (hstep : next pid destName s e = some s') :
    Exclusive s'.stage s'.locks := by
  cases e with
  | start p =>
    obtain ⟨-, -, rfl⟩ := next_start hstep
    exact h
  | exit p =>
    obtain ⟨-, rfl⟩ := next_exit hstep
    exact h.exit p
  | act w action => exact h.act hok (act_effect hstep)

/-- Initially nobody has a lock. -/
lemma Initial.exclusive {s : State} (h : Initial pid s) : Exclusive s.stage s.locks where
  owned {w lock} hw := by
    rw [h.idle] at hw
    cases hw
  named {w lock} hw := by
    rw [h.idle] at hw
    cases hw

/-- A worker that has not begun begins with a step of its own. -/
lemma idle_of_next {s s' : State} {e : Event} (h : next pid destName s e = some s') {w : Worker}
    (hidle : s.stage w = .idle) (hnot : ∀ action, e ≠ .act w action) : s'.stage w = .idle := by
  have hexit : ∀ p, (s.exit pid p).stage w = .idle := by
    intro p
    show (if w.proc = p then (s.stage w).abandon else s.stage w) = .idle
    rw [hidle]
    split_ifs <;> rfl
  cases e with
  | start p =>
    obtain ⟨-, -, rfl⟩ := next_start h
    exact hidle
  | exit p =>
    obtain ⟨-, rfl⟩ := next_exit h
    exact hexit p
  | act w' action =>
    have hne : w ≠ w' := by
      rintro rfl
      exact hnot action rfl
    cases act_effect h with
    | refused => exact hexit w'.proc
    | unlinkPart | gitWrite | gitRemove => exact hidle
    | _ => exact (State.become_stage_of_ne _ hne _).trans hidle

/-- A worker that takes no step in an evaluated run does not begin. -/
lemma idle_of_replay {s s' : State} {events : List Event}
    (h : replay (next pid destName) s events = some s') {w : Worker} (hidle : s.stage w = .idle)
    (hnot : ∀ e ∈ events, ∀ action, e ≠ .act w action) : s'.stage w = .idle := by
  induction events generalizing s with
  | nil =>
    obtain rfl : s = s' := by simpa [replay] using h
    exact hidle
  | cons e events ih =>
    obtain ⟨t, ht, h⟩ := replay_cons_eq_some_iff.mp h
    obtain ⟨hhead, htail⟩ := List.forall_mem_cons.mp hnot
    exact ih h (idle_of_next ht hidle hhead) htail

end

/-- In every run in which the lock path is removed only while no other worker has the lock file it
names open, with the lock still to take or held, at most one worker at a time is between a
successful `try_lock` and its `unlock`. -/
theorem at_most_one_held (pid : ℕ → ℕ) (destName : Str) {s : State}
    (h : Reachable (Initial pid) (StepOf (next pid destName) UnlinksAlone) s) {w w' : Worker}
    (hw : (s.stage w).held ≠ none) (hw' : (s.stage w').held ≠ none) : w = w' := by
  have hexclusive : Exclusive s.stage s.locks := by
    refine h.invariant (P := fun s => Exclusive s.stage s.locks) ?_ ?_
    · exact fun _ => Initial.exclusive
    · rintro s t - hs ⟨e, hok, hstep⟩
      exact hs.next hok hstep
  exact hexclusive.unique hw hw'

/-- Nothing but an empty parent directory. -/
def blank : State where
  status := fun _ => .waiting
  alive := fun _ => false
  stage := fun _ => .idle
  locks := ⟨none, fun _ => none, 0⟩
  disk := ⟨none, fun _ => none, fun _ => [], 0⟩
  output := fun _ => none

/-- Before anything has happened is a state to start from. -/
lemma initial_blank (pid : ℕ → ℕ) : Initial pid blank where
  waiting _ := rfl
  notAlive _ := rfl
  idle _ := rfl
  unlocked _ := rfl
  noOutput _ := rfl
  pathOld _ h := nomatch h
  tidy := ⟨fun h => (nomatch h), fun h => (nomatch h), fun h => (nomatch h)⟩

/-- A worker goes from its start to an open lock path, with nothing to clean up. -/
def approach (w : Worker) : List Event :=
  [.act w .enter, .act w .endScan, .act w .endClean, .act w .openLock]

/-- One process has given its lock back and is about to remove the lock path, and another is about
to open it. -/
def handOver : List Event :=
  [.start 0, .start 1] ++ approach ⟨0, 0⟩ ++
    [.act ⟨0, 0⟩ .tryLock, .act ⟨0, 0⟩ .gitFail, .act ⟨0, 0⟩ .openDir, .act ⟨0, 0⟩ .endClean,
      .act ⟨0, 0⟩ .unlock, .act ⟨1, 0⟩ .enter, .act ⟨1, 0⟩ .endScan, .act ⟨1, 0⟩ .endClean]

/-- The other makes a lock file of its own and locks it. -/
def takeOver : List Event := [.act ⟨1, 0⟩ .openLock, .act ⟨1, 0⟩ .tryLock]

/-- A lock path is removed while nobody has its lock file open, and then one worker holds a lock. -/
theorem at_most_one_held_sample :
    ∃ s, replay (next (· + 1) "repo".toList) blank
        (handOver ++ .act ⟨0, 0⟩ .unlinkLock :: takeOver) = some s ∧
      (s.stage ⟨1, 0⟩).held = some 1 ∧ ∀ w, (s.stage w).held ≠ none → w = ⟨1, 0⟩ := by
  obtain ⟨s, hs⟩ : ∃ s, replay (next (· + 1) "repo".toList) blank
      (handOver ++ .act ⟨0, 0⟩ .unlinkLock :: takeOver) = some s := by
    apply Option.isSome_iff_exists.mp
    decide +kernel
  have hheld : (replay (next (· + 1) "repo".toList) blank
      (handOver ++ .act ⟨0, 0⟩ .unlinkLock :: takeOver)).map
        (fun s => (s.stage ⟨1, 0⟩).held) = some (some 1) := by
    decide +kernel
  have hopening : (replay (next (· + 1) "repo".toList) blank handOver).map
      (fun s => (s.stage ⟨1, 0⟩).lock) = some none := by
    decide +kernel
  rw [hs, Option.map_some, Option.some.injEq] at hheld
  obtain ⟨t, ht, hrest⟩ := replay_append_eq_some_iff.mp hs
  obtain ⟨u, hu, hrest⟩ := replay_cons_eq_some_iff.mp hrest
  rw [ht, Option.map_some, Option.some.injEq] at hopening
  have halone : UnlinksAlone t (.act ⟨0, 0⟩ .unlinkLock) := by
    intro w hne lock _
    by_cases hw : w = ⟨1, 0⟩
    · rw [hw, hopening]
      nofun
    · rw [idle_of_replay ht rfl (by simp [handOver, approach, hne, hw, Ne.symm])]
      nofun
  have hreach : Reachable (Initial (· + 1))
      (StepOf (next (· + 1) "repo".toList) UnlinksAlone) t := by
    refine (Reachable.initial (initial_blank _)).of_replay ?_ ht
    simp [handOver, approach, UnlinksAlone]
  have hreach : Reachable (Initial (· + 1))
      (StepOf (next (· + 1) "repo".toList) UnlinksAlone) s := by
    refine (hreach.tail ⟨_, halone, hu⟩).of_replay ?_ hrest
    simp [takeOver, UnlinksAlone]
  exact ⟨s, hs, hheld, fun w hw =>
    at_most_one_held (· + 1) "repo".toList hreach hw (by simp [hheld])⟩

/-- A run with three processes.  The second has the lock file of the first open when the first
unlocks it, locks it before the first removes the lock path, and then the third makes a lock file of
its own. -/
def threeProcesses : List Event :=
  [.start 0, .start 1, .start 2] ++ approach ⟨0, 0⟩ ++ [.act ⟨0, 0⟩ .tryLock] ++ approach ⟨1, 0⟩ ++
    [.act ⟨2, 0⟩ .enter, .act ⟨2, 0⟩ .endScan, .act ⟨2, 0⟩ .endClean,
      .act ⟨0, 0⟩ .gitFail, .act ⟨0, 0⟩ .openDir, .act ⟨0, 0⟩ .endClean, .act ⟨0, 0⟩ .unlock,
      .act ⟨1, 0⟩ .tryLock, .act ⟨0, 0⟩ .unlinkLock, .act ⟨2, 0⟩ .openLock, .act ⟨2, 0⟩ .tryLock]

/-- Two workers can hold a lock at the same time. -/
theorem two_held :
    ¬∀ (pid : ℕ → ℕ) (destName : Str) (s : State),
      Reachable (Initial pid) (StepOf (next pid destName) fun _ _ => True) s →
      ∀ w w' : Worker, (s.stage w).held ≠ none → (s.stage w').held ≠ none → w = w' := by
  intro hunique
  obtain ⟨s, hs⟩ : ∃ s, replay (next (· + 1) "repo".toList) blank threeProcesses = some s := by
    apply Option.isSome_iff_exists.mp
    decide +kernel
  have hone : (replay (next (· + 1) "repo".toList) blank threeProcesses).map
      (fun s => (s.stage ⟨1, 0⟩).held) = some (some 0) := by
    decide +kernel
  have htwo : (replay (next (· + 1) "repo".toList) blank threeProcesses).map
      (fun s => (s.stage ⟨2, 0⟩).held) = some (some 1) := by
    decide +kernel
  rw [hs, Option.map_some, Option.some.injEq] at hone htwo
  have hreach : Reachable (Initial (· + 1))
      (StepOf (next (· + 1) "repo".toList) fun _ _ => True) s :=
    (Reachable.initial (initial_blank _)).of_replay (fun _ _ _ => trivial) hs
  have := hunique _ _ s hreach ⟨1, 0⟩ ⟨2, 0⟩ (by rw [hone]; simp) (by rw [htwo]; simp)
  exact absurd this (by decide)

end Clone

end Scap
