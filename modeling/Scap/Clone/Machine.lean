import Mathlib.Logic.Function.Basic
import Mathlib.Tactic.SplitIfs
import Scap.Basic
import Scap.Foundations.Transition
import Scap.Path

/-!
# Processes that clone one destination

Any number of `get` processes work on one destination at once (`process_target` and
`clone_with_lock`, `src/cmd/get.rs`; `dest_is_git_repo` and `stale_tmp_paths`, `src/vcs/git.rs`).  A
worker is one call of `process_target` for the destination.  `act` is one step of one worker, `next`
one event of the whole system; any worker may take the next step, and a process may end at any time.

Directories and lock files are objects of their own, apart from the names that lead to them: a file
lock belongs to the lock file that was opened, whatever its path names later, and a directory whose
removal is under way is emptied wherever a rename has moved it.  The paths below the destination's
parent are the destination, the lock path, and `<name>.tmp-<suffix>` for every suffix.
-/

namespace Scap

namespace Clone

open Function (update)

/-! ## Directories -/

/-- A directory tree: the relative paths in it, a file with its bytes and a directory without.  A
plain file is the tree with the one path `""`. -/
abbrev Files := List (Str × Option Bytes)

/-- `dest_is_git_repo`, with the destination's file name and what is there. -/
def destIsGitRepo (destName : Str) (files : Files) : Bool :=
  let isDir := fun path : Str => decide ((path, none) ∈ files)
  let isFile := fun path : Str => files.any fun (p, bytes) => p = path && bytes.isSome
  isDir ".git".toList ||
    (decide (".git".toList <:+ destName) && isFile "HEAD".toList && isDir "objects".toList &&
      isDir "refs".toList)

/-- What the processes see below the destination's parent. -/
structure Disk where
  /-- The directory the destination names. -/
  dest : Option ℕ
  /-- The directory `<name>.tmp-<suffix>` names, by suffix. -/
  tmp : Str → Option ℕ
  /-- What is in a directory. -/
  content : ℕ → Files
  /-- The first directory that does not exist yet. -/
  next : ℕ

namespace Disk

/-- What can be seen at the destination. -/
def visible (d : Disk) : Option Files := d.dest.map d.content

/-- The content of a directory changes. -/
def write (d : Disk) (dir : ℕ) (files : Files) : Disk :=
  { d with content := update d.content dir files }

/-- A new directory. -/
def mkdir (d : Disk) (suffix : Str) : Disk :=
  { d with
    tmp := update d.tmp suffix (some d.next)
    content := update d.content d.next []
    next := d.next + 1 }

/-- `rmdir`, which fails unless the directory is empty. -/
def rmdir (d : Disk) (suffix : Str) : Disk :=
  if (d.tmp suffix).map d.content = some [] then { d with tmp := update d.tmp suffix none } else d

/-- `rename` to the destination, which fails if that is a non-empty directory, or a file. -/
def rename (d : Disk) (suffix : Str) : Option Disk :=
  match d.tmp suffix with
  | some dir =>
    if d.visible.getD [] = [] then
      some { d with dest := some dir, tmp := update d.tmp suffix none }
    else none
  | none => none

/-- A directory has no name, or just this one. -/
structure NamedOnly (d : Disk) (dir : ℕ) (suffix : Str) : Prop where
  old : dir < d.next
  only : ∀ {suffix'}, d.tmp suffix' = some dir → suffix' = suffix

/-- Different names lead to different directories, all of which exist. -/
structure Tidy (d : Disk) : Prop where
  tmpOnly : ∀ {suffix dir}, d.tmp suffix = some dir → d.NamedOnly dir suffix
  destOld : ∀ {dir}, d.dest = some dir → dir < d.next
  apart : ∀ {suffix dir}, d.tmp suffix = some dir → d.dest ≠ some dir

end Disk

/-! ## Locks -/

/-- One call of `process_target` for the destination. -/
structure Worker where
  proc : ℕ
  thread : ℕ
deriving DecidableEq

/-- The lock path and the locks held. -/
structure Locks where
  /-- The lock file the lock path names. -/
  path : Option ℕ
  /-- Who holds the lock on a lock file. -/
  owner : ℕ → Option Worker
  /-- The first lock file that does not exist yet. -/
  next : ℕ

namespace Locks

/-- The lock file an open with `create(true)` returns. -/
def opened (l : Locks) : ℕ := l.path.getD l.next

/-- The locks after an open with `create(true)`. -/
def create (l : Locks) : Locks :=
  if l.path = none then { l with path := some l.next, next := l.next + 1 } else l

/-- A lock is taken. -/
def acquire (l : Locks) (lock : ℕ) (w : Worker) : Locks :=
  { l with owner := update l.owner lock (some w) }

/-- A lock is given back. -/
def release (l : Locks) (lock : ℕ) : Locks := { l with owner := update l.owner lock none }

/-- The locks once a process is gone. -/
def releaseAll (l : Locks) (p : ℕ) : Locks :=
  { l with owner := fun lock => (l.owner lock).filter fun w => w.proc ≠ p }

end Locks

/-! ## Process identifiers -/

/-- The suffix of a process's own temporary directory, `tmp_path_for`. -/
def decimal (pid : ℕ) : Str := Nat.toDigits 10 pid

/-- `str::parse::<i32>`. -/
def parseI32 (s : Str) : Option ℤ :=
  let (negative, digits) := match s with
    | '-' :: digits => (true, digits)
    | '+' :: digits => (false, digits)
    | digits => (false, digits)
  if digits = [] ∨ ¬digits.all Char.isDigit then none
  else
    let magnitude : ℤ := Nat.ofDigitChars 10 digits 0
    let value := if negative then -magnitude else magnitude
    if -2 ^ 31 ≤ value ∧ value < 2 ^ 31 then some value else none

/-- `pid_is_alive`. -/
def pidIsAlive (alive : ℕ → Bool) (pid : ℤ) : Bool := decide (0 < pid) && alive pid.toNat

/-- Whether `stale_tmp_paths` lists a name with this suffix. -/
def isStale (alive : ℕ → Bool) (suffix : Str) : Bool :=
  match parseI32 suffix with
  | some pid => !pidIsAlive alive pid
  | none => false

/-- A sign, or none, and decimal digits are read as a number, if that is in range. -/
lemma parseI32_append {sign digits : Str} (hsign : sign = ['-'] ∨ sign = ['+'] ∨ sign = [])
    (hne : digits ≠ []) (hall : ∀ c ∈ digits, c.isDigit = true) :
    parseI32 (sign ++ digits) =
      let magnitude : ℤ := Nat.ofDigitChars 10 digits 0
      let value := if sign = ['-'] then -magnitude else magnitude
      if -2 ^ 31 ≤ value ∧ value < 2 ^ 31 then some value else none := by
  have hdigits : ¬(digits = [] ∨ ¬digits.all Char.isDigit) :=
    not_or.mpr ⟨hne, not_not.mpr (List.all_eq_true.mpr hall)⟩
  rcases hsign with rfl | rfl | rfl
  · exact if_neg hdigits
  · exact if_neg hdigits
  · -- The first digit is no sign.
    have hfirst : ∀ c rest, digits = c :: rest → c.isDigit = true := by
      rintro c rest rfl
      exact hall c List.mem_cons_self
    unfold parseI32
    rw [List.nil_append]
    split
    rename_i negative rest hmatch
    split at hmatch
    · exact absurd (hfirst _ _ rfl) (by decide)
    · exact absurd (hfirst _ _ rfl) (by decide)
    · cases hmatch
      exact if_neg hdigits

/-- What is read as a number is a sign, or none, and decimal digits. -/
lemma exists_digits_of_parseI32 {s : Str} {n : ℤ} (h : parseI32 s = some n) :
    ∃ sign digits, s = sign ++ digits ∧ (sign = ['-'] ∨ sign = ['+'] ∨ sign = []) ∧
      digits ≠ [] ∧ ∀ c ∈ digits, c.isDigit = true := by
  unfold parseI32 at h
  split at h
  rename_i negative digits hmatch
  by_cases hdigits : digits = [] ∨ ¬digits.all Char.isDigit
  · rw [if_pos hdigits] at h
    cases h
  · obtain ⟨hne, hall⟩ := not_or.mp hdigits
    have hall := List.all_eq_true.mp (not_not.mp hall)
    split at hmatch <;> cases hmatch
    · exact ⟨['-'], digits, rfl, .inl rfl, hne, hall⟩
    · exact ⟨['+'], digits, rfl, .inr (.inl rfl), hne, hall⟩
    · exact ⟨[], s, rfl, .inr (.inr rfl), hne, hall⟩

/-- The texts that `str::parse::<i32>` reads: an optional sign and decimal digits, in range. -/
lemma parseI32_eq_some_iff {s : Str} {n : ℤ} :
    parseI32 s = some n ↔ (-2 ^ 31 ≤ n ∧ n < 2 ^ 31) ∧ ∃ sign digits, s = sign ++ digits ∧
      (sign = ['-'] ∨ sign = ['+'] ∨ sign = []) ∧ digits ≠ [] ∧
        (∀ c ∈ digits, c.isDigit = true) ∧
          n = if sign = ['-'] then -(Nat.ofDigitChars 10 digits 0 : ℤ)
            else Nat.ofDigitChars 10 digits 0 := by
  constructor
  · intro h
    obtain ⟨sign, digits, rfl, hsign, hne, hall⟩ := exists_digits_of_parseI32 h
    rw [parseI32_append hsign hne hall] at h
    obtain ⟨hrange, hn⟩ := Option.ite_none_right_eq_some.mp h
    obtain rfl := Option.some.inj hn
    exact ⟨hrange, sign, digits, rfl, hsign, hne, hall, rfl⟩
  · rintro ⟨hrange, sign, digits, rfl, hsign, hne, hall, rfl⟩
    rw [parseI32_append hsign hne hall]
    exact if_pos hrange

/-- The decimal form of a number is read back, if it is in range. -/
lemma parseI32_decimal (n : ℕ) :
    parseI32 (decimal n) = if n < 2 ^ 31 then some (n : ℤ) else none := by
  have hvalue : Nat.ofDigitChars 10 (decimal n) 0 = n := Nat.ofDigitChars_ten_toDigits
  have hdigit : ∀ c ∈ decimal n, c.isDigit = true := fun c hc =>
    Nat.isDigit_of_mem_toDigits (by decide) (by decide) hc
  have hread : parseI32 ([] ++ decimal n) = _ :=
    parseI32_append (.inr (.inr rfl)) Nat.toDigits_ne_nil hdigit
  rw [List.nil_append, hvalue] at hread
  simp only [reduceCtorEq, if_false] at hread
  rw [hread]
  exact if_congr (by omega) rfl rfl

/-- Different numbers have different decimal forms. -/
lemma decimal_injective : Function.Injective decimal := by
  intro m n h
  have := congrArg (fun digits => Nat.ofDigitChars 10 digits 0) h
  simpa only [decimal, Nat.ofDigitChars_ten_toDigits] using this

/-- A suffix is stale exactly if it is the decimal form of an `i32` that is the number of no live
process.  Zero and the negative numbers never are one. -/
lemma isStale_iff {alive : ℕ → Bool} {suffix : Str} :
    isStale alive suffix = true ↔
      ∃ n, parseI32 suffix = some n ∧ ∀ pid : ℕ, n = pid → 0 < pid → alive pid = false := by
  unfold isStale
  cases hparse : parseI32 suffix with
  | none => simp
  | some n =>
    simp only [Bool.not_eq_true', Option.some.injEq, exists_eq_left', pidIsAlive]
    constructor
    · rintro h pid rfl hpos
      simpa [hpos] using h
    · intro h
      by_cases hpos : 0 < n
      · simpa [hpos] using h n.toNat (Int.toNat_of_nonneg hpos.le).symm (by omega)
      · simp [hpos]

/-- The directory of a process that is alive is not stale. -/
lemma isStale_decimal {alive : ℕ → Bool} {pid : ℕ} (hpos : 0 < pid) (h : alive pid = true) :
    isStale alive (decimal pid) = false := by
  refine Bool.eq_false_iff.mpr fun hstale => ?_
  obtain ⟨n, hn, hdead⟩ := isStale_iff.mp hstale
  rw [parseI32_decimal] at hn
  split_ifs at hn
  rw [hdead pid (Option.some.inj hn).symm hpos] at h
  exact Bool.false_ne_true h

/-! ## Workers -/

/-- Where a worker stands.  In `cleaning` and `removing` the lock tells the clean-up of stale
directories, before the lock is opened, from that of the worker's own, under the lock. -/
inductive Stage where
  /-- Before `dest_is_git_repo`. -/
  | idle
  /-- In `stale_tmp_paths`: the suffixes read and not yet looked at, and those found stale. -/
  | scanning (suffixes stale : List Str)
  /-- Before `remove_dir_all` on each of these. -/
  | cleaning (lock : Option ℕ) (suffixes : List Str)
  /-- Inside `remove_dir_all`: the directory it has opened, and the suffix it was opened by. -/
  | removing (lock : Option ℕ) (dir : ℕ) (suffix : Str) (suffixes : List Str)
  /-- Before the lock path is opened. -/
  | opening
  /-- Before `try_lock`. -/
  | opened (lock : ℕ)
  /-- Locked; `git clone` is started. -/
  | cloning (lock : ℕ)
  /-- `git clone` is at work in its directory. -/
  | writing (lock : ℕ)
  /-- `git clone` has returned success. -/
  | cloned (lock : ℕ)
  /-- The result is known. -/
  | unlocking (lock : ℕ)
  /-- Before the lock path is removed. -/
  | unlinking
  /-- The process is gone and its `git` is still at work. -/
  | orphaned
  /-- Done, or gone with its process. -/
  | ended
deriving DecidableEq

namespace Stage

/-- The lock a worker holds: the worker is between a successful `try_lock` and its `unlock`. -/
def held : Stage → Option ℕ
  | cleaning lock _ | removing lock _ _ _ => lock
  | cloning lock | writing lock | cloned lock | unlocking lock => some lock
  | _ => none

/-- The lock file a worker has open and has still to lock, or holds. -/
def lock : Stage → Option ℕ
  | opened lock => some lock
  | stage => stage.held

/-- The suffixes whose directories a worker is to remove. -/
def pending : Stage → List Str
  | scanning _ stale => stale
  | cleaning _ suffixes => suffixes
  | removing _ _ suffix suffixes => suffix :: suffixes
  | _ => []

/-- What becomes of a worker whose process is gone. -/
def abandon : Stage → Stage
  | idle => idle
  | writing _ | orphaned => orphaned
  | _ => ended

end Stage

/-- The life of a process. -/
inductive Status where
  | waiting | running | exited
deriving DecidableEq

/-- The whole system. -/
structure State where
  status : ℕ → Status
  /-- Which process identifiers are reported alive. -/
  alive : ℕ → Bool
  stage : Worker → Stage
  locks : Locks
  disk : Disk
  /-- What a worker's `git clone` has returned success with: its directory, and what was in it. -/
  output : Worker → Option (ℕ × Files)

/-- A step of a worker. -/
inductive Action where
  /-- `dest_is_git_repo`. -/
  | enter
  /-- `read_dir` returns a name with this suffix. -/
  | read (suffix : Str)
  /-- The next name read is looked at. -/
  | examine
  /-- `stale_tmp_paths` returns. -/
  | endScan
  /-- `remove_dir_all` opens the next directory, if there is one. -/
  | openDir
  /-- `remove_dir_all` removes what is inside, up to this. -/
  | unlinkPart (kept : Files)
  /-- `remove_dir_all` removes the directory itself. -/
  | rmdir
  /-- A removal fails; the error is ignored. -/
  | giveUp
  /-- Nothing is left to remove. -/
  | endClean
  /-- The lock path is opened, and created if it does not exist. -/
  | openLock
  /-- The lock path cannot be opened, or its parent cannot be made. -/
  | openFail
  /-- `try_lock`. -/
  | tryLock
  /-- `git clone` makes its directory, or takes an empty one, or fails on one that is not empty. -/
  | gitStart
  /-- `git clone` changes what is in its directory. -/
  | gitWrite (files : Files)
  /-- `git clone` removes its directory, as it does before it fails. -/
  | gitRemove
  /-- `git clone` fails. -/
  | gitFail
  /-- `git clone` returns success. -/
  | gitDone
  /-- `rename` to the destination. -/
  | rename
  /-- The destination's parent cannot be made, or the `rename` fails for another reason. -/
  | renameFail
  /-- `unlock`. -/
  | unlock
  /-- The lock path is removed. -/
  | unlinkLock
deriving DecidableEq

/-- One event of the system. -/
inductive Event where
  /-- A process starts. -/
  | start (p : ℕ)
  /-- A process ends, or dies. -/
  | exit (p : ℕ)
  /-- A worker takes a step. -/
  | act (w : Worker) (action : Action)
deriving DecidableEq

section

variable (pid : ℕ → ℕ) (destName : Str)

/-- The suffix of a worker's own temporary directory. -/
def ownSuffix (w : Worker) : Str := decimal (pid w.proc)

namespace State

/-- A worker moves to a stage. -/
def become (s : State) (w : Worker) (stage : Stage) : State :=
  { s with stage := update s.stage w stage }

/-- A worker that moves is at its new stage. -/
lemma become_stage_self (s : State) (w : Worker) (stage : Stage) :
    (s.become w stage).stage w = stage := Function.update_self ..

/-- A worker that moves leaves the others at their stages. -/
lemma become_stage_of_ne (s : State) {w w' : Worker} (hne : w' ≠ w) (stage : Stage) :
    (s.become w stage).stage w' = s.stage w' := Function.update_of_ne hne ..

/-- A worker's `git clone` returns success. -/
def record (s : State) (w : Worker) (dir : ℕ) : State :=
  { s with output := update s.output w (some (dir, s.disk.content dir)) }

/-- A worker's `git clone` is recorded with its directory and its contents. -/
lemma record_output_self (s : State) (w : Worker) (dir : ℕ) :
    (s.record w dir).output w = some (dir, s.disk.content dir) := Function.update_self ..

/-- The record of one worker leaves those of the others as they are. -/
lemma record_output_of_ne (s : State) {w w' : Worker} (hne : w' ≠ w) (dir : ℕ) :
    (s.record w dir).output w' = s.output w' := Function.update_of_ne hne ..

/-- A process starts. -/
def start (s : State) (p : ℕ) : State :=
  { s with status := update s.status p .running, alive := update s.alive (pid p) true }

/-- A process is gone. -/
def exit (s : State) (p : ℕ) : State :=
  { s with
    status := update s.status p .exited
    alive := update s.alive (pid p) false
    stage := fun w => if w.proc = p then (s.stage w).abandon else s.stage w
    locks := s.locks.releaseAll p }

end State

/-- One step of a worker. -/
def act (s : State) (w : Worker) (action : Action) : Option State :=
  match s.stage w, action with
  | .idle, .enter =>
    if s.status w.proc = .running then
      if destIsGitRepo destName (s.disk.visible.getD []) then some (s.become w .ended)
      else some (s.become w (.scanning [] []))
    else none
  | .scanning suffixes stale, .read suffix =>
    if s.disk.tmp suffix ≠ none then some (s.become w (.scanning (suffixes ++ [suffix]) stale))
    else none
  | .scanning (suffix :: suffixes) stale, .examine =>
    some (s.become w
      (.scanning suffixes (if isStale s.alive suffix then stale ++ [suffix] else stale)))
  | .scanning [] stale, .endScan => some (s.become w (.cleaning none stale))
  | .cleaning lock (suffix :: suffixes), .openDir =>
    match s.disk.tmp suffix with
    | some dir => some (s.become w (.removing lock dir suffix suffixes))
    | none => some (s.become w (.cleaning lock suffixes))
  | .removing _ dir _ _, .unlinkPart kept =>
    if kept.Sublist (s.disk.content dir) then some { s with disk := s.disk.write dir kept }
    else none
  | .removing lock _ suffix suffixes, .rmdir =>
    some { s.become w (.cleaning lock suffixes) with disk := s.disk.rmdir suffix }
  | .cleaning lock (_ :: suffixes), .giveUp => some (s.become w (.cleaning lock suffixes))
  | .removing lock _ _ suffixes, .giveUp => some (s.become w (.cleaning lock suffixes))
  | .cleaning none [], .endClean => some (s.become w .opening)
  | .cleaning (some lock) [], .endClean => some (s.become w (.unlocking lock))
  | .opening, .openLock =>
    some { s.become w (.opened s.locks.opened) with locks := s.locks.create }
  | .opening, .openFail => some (s.become w .ended)
  | .opened lock, .tryLock =>
    match s.locks.owner lock with
    | none => some { s.become w (.cloning lock) with locks := s.locks.acquire lock w }
    -- `exit(75)` ends the process with all its workers.
    | some _ => some (s.exit pid w.proc)
  | .cloning lock, .gitStart =>
    match s.disk.tmp (ownSuffix pid w) with
    | none => some { s.become w (.writing lock) with disk := s.disk.mkdir (ownSuffix pid w) }
    | some dir =>
      if s.disk.content dir = [] then some (s.become w (.writing lock))
      else some (s.become w (.cleaning (some lock) [ownSuffix pid w]))
  | .writing _, .gitWrite files | .orphaned, .gitWrite files =>
    match s.disk.tmp (ownSuffix pid w) with
    | some dir => some { s with disk := s.disk.write dir files }
    | none => none
  | .writing _, .gitRemove | .orphaned, .gitRemove =>
    some { s with disk := s.disk.rmdir (ownSuffix pid w) }
  | .cloning lock, .gitFail | .writing lock, .gitFail =>
    some (s.become w (.cleaning (some lock) [ownSuffix pid w]))
  | .writing lock, .gitDone =>
    match s.disk.tmp (ownSuffix pid w) with
    | some dir =>
      if s.disk.content dir ≠ [] then some ((s.become w (.cloned lock)).record w dir) else none
    | none => none
  | .cloned lock, .rename =>
    match s.disk.rename (ownSuffix pid w) with
    | some disk => some { s.become w (.unlocking lock) with disk := disk }
    | none => some (s.become w (.cleaning (some lock) [ownSuffix pid w]))
  | .cloned lock, .renameFail => some (s.become w (.cleaning (some lock) [ownSuffix pid w]))
  | .unlocking lock, .unlock =>
    some { s.become w .unlinking with locks := s.locks.release lock }
  | .unlinking, .unlinkLock =>
    some { s.become w .ended with locks := { s.locks with path := none } }
  | .unlinking, .giveUp => some (s.become w .ended)
  | _, _ => none

/-- One event of the system. -/
def next (s : State) : Event → Option State
  | .start p =>
    if s.status p = .waiting ∧ s.alive (pid p) = false then some (s.start pid p) else none
  | .exit p => if s.status p = .running then some (s.exit pid p) else none
  | .act w action => act pid destName s w action

/-- Before the first process starts. -/
structure Initial (s : State) : Prop where
  waiting : ∀ p, s.status p = .waiting
  notAlive : ∀ p, s.alive (pid p) = false
  idle : ∀ w, s.stage w = .idle
  unlocked : ∀ lock, s.locks.owner lock = none
  noOutput : ∀ w, s.output w = none
  pathOld : ∀ lock, s.locks.path = some lock → lock < s.locks.next
  tidy : s.disk.Tidy

/-! ## What a step does -/

/-- A step that changes nothing but the worker's stage. -/
inductive Move (s : State) (w : Worker) : Stage → Stage → Prop
  | skip : s.status w.proc = .running → Move s w .idle .ended
  | enter : s.status w.proc = .running → Move s w .idle (.scanning [] [])
  | read (suffixes stale : List Str) (suffix : Str) :
      Move s w (.scanning suffixes stale) (.scanning (suffixes ++ [suffix]) stale)
  | pass (suffixes stale : List Str) (suffix : Str) :
      Move s w (.scanning (suffix :: suffixes) stale) (.scanning suffixes stale)
  | stale (suffixes stale : List Str) (suffix : Str) : isStale s.alive suffix = true →
      Move s w (.scanning (suffix :: suffixes) stale) (.scanning suffixes (stale ++ [suffix]))
  | endScan (stale : List Str) : Move s w (.scanning [] stale) (.cleaning none stale)
  | openDir (lock : Option ℕ) (dir : ℕ) (suffix : Str) (suffixes : List Str) :
      s.disk.tmp suffix = some dir →
      Move s w (.cleaning lock (suffix :: suffixes)) (.removing lock dir suffix suffixes)
  | skipDir (lock : Option ℕ) (suffix : Str) (suffixes : List Str) :
      Move s w (.cleaning lock (suffix :: suffixes)) (.cleaning lock suffixes)
  | giveUp (lock : Option ℕ) (dir : ℕ) (suffix : Str) (suffixes : List Str) :
      Move s w (.removing lock dir suffix suffixes) (.cleaning lock suffixes)
  | cleanStale : Move s w (.cleaning none []) .opening
  | cleanOwn (lock : ℕ) : Move s w (.cleaning (some lock) []) (.unlocking lock)
  | openFail : Move s w .opening .ended
  | gitStart (lock : ℕ) : Move s w (.cloning lock) (.writing lock)
  | failStart (lock : ℕ) : Move s w (.cloning lock) (.cleaning (some lock) [ownSuffix pid w])
  | failClone (lock : ℕ) : Move s w (.writing lock) (.cleaning (some lock) [ownSuffix pid w])
  | failRename (lock : ℕ) : Move s w (.cloned lock) (.cleaning (some lock) [ownSuffix pid w])
  | leave : Move s w .unlinking .ended

/-- What a step of a worker does. -/
inductive Effect (s : State) (w : Worker) : Action → State → Prop
  | move {action : Action} {stage : Stage} : Move pid s w (s.stage w) stage →
      Effect s w action (s.become w stage)
  | openLock : s.stage w = .opening →
      Effect s w .openLock { s.become w (.opened s.locks.opened) with locks := s.locks.create }
  | tryLock {lock : ℕ} : s.stage w = .opened lock → s.locks.owner lock = none →
      Effect s w .tryLock { s.become w (.cloning lock) with locks := s.locks.acquire lock w }
  | refused {lock : ℕ} : s.stage w = .opened lock → Effect s w .tryLock (s.exit pid w.proc)
  | unlock {lock : ℕ} : s.stage w = .unlocking lock →
      Effect s w .unlock { s.become w .unlinking with locks := s.locks.release lock }
  | unlinkLock : s.stage w = .unlinking →
      Effect s w .unlinkLock { s.become w .ended with locks := { s.locks with path := none } }
  | unlinkPart {lock : Option ℕ} {dir : ℕ} {suffix : Str} {suffixes : List Str} {kept : Files} :
      s.stage w = .removing lock dir suffix suffixes →
      Effect s w (.unlinkPart kept) { s with disk := s.disk.write dir kept }
  | rmdir {lock : Option ℕ} {dir : ℕ} {suffix : Str} {suffixes : List Str} :
      s.stage w = .removing lock dir suffix suffixes →
      Effect s w .rmdir { s.become w (.cleaning lock suffixes) with disk := s.disk.rmdir suffix }
  | mkdir {lock : ℕ} : s.stage w = .cloning lock → s.disk.tmp (ownSuffix pid w) = none →
      Effect s w .gitStart
        { s.become w (.writing lock) with disk := s.disk.mkdir (ownSuffix pid w) }
  | gitWrite {dir : ℕ} {files : Files} :
      ((∃ lock, s.stage w = .writing lock) ∨ s.stage w = .orphaned) →
      s.disk.tmp (ownSuffix pid w) = some dir →
      Effect s w (.gitWrite files) { s with disk := s.disk.write dir files }
  | gitRemove : ((∃ lock, s.stage w = .writing lock) ∨ s.stage w = .orphaned) →
      Effect s w .gitRemove { s with disk := s.disk.rmdir (ownSuffix pid w) }
  | gitDone {lock dir : ℕ} : s.stage w = .writing lock →
      s.disk.tmp (ownSuffix pid w) = some dir → s.disk.content dir ≠ [] →
      Effect s w .gitDone ((s.become w (.cloned lock)).record w dir)
  | rename {lock : ℕ} {disk : Disk} : s.stage w = .cloned lock →
      s.disk.rename (ownSuffix pid w) = some disk →
      Effect s w .rename { s.become w (.unlocking lock) with disk := disk }

variable {pid destName}

/-- A process that starts has not run, and its identifier is free. -/
lemma next_start {s s' : State} {p : ℕ} (h : next pid destName s (.start p) = some s') :
    s.status p = .waiting ∧ s.alive (pid p) = false ∧ s' = s.start pid p := by
  obtain ⟨⟨hwaiting, halive⟩, h⟩ := Option.ite_none_right_eq_some.mp h
  exact ⟨hwaiting, halive, (Option.some.inj h).symm⟩

/-- A process that is gone was running. -/
lemma next_exit {s s' : State} {p : ℕ} (h : next pid destName s (.exit p) = some s') :
    s.status p = .running ∧ s' = s.exit pid p := by
  obtain ⟨hrunning, h⟩ := Option.ite_none_right_eq_some.mp h
  exact ⟨hrunning, (Option.some.inj h).symm⟩

/-- Every step has one of these effects. -/
lemma act_effect {s s' : State} {w : Worker} {action : Action}
    (h : act pid destName s w action = some s') : Effect pid s w action s' := by
  have move : ∀ {old new : Stage}, s.stage w = old → Move pid s w old new →
      Effect pid s w action (s.become w new) := by
    rintro old new rfl hmove
    exact .move hmove
  unfold act at h
  split at h
  · rename_i hstage
    split at h
    · rename_i hrunning
      split at h
      · cases h
        exact move hstage (.skip hrunning)
      · cases h
        exact move hstage (.enter hrunning)
    · cases h
  · rename_i hstage
    split at h
    · cases h
      exact move hstage (.read ..)
    · cases h
  · rename_i hstage
    cases h
    split
    · rename_i hstale
      exact move hstage (.stale _ _ _ hstale)
    · exact move hstage (.pass ..)
  · rename_i hstage
    cases h
    exact move hstage (.endScan _)
  · rename_i hstage
    split at h
    · rename_i hdir
      cases h
      exact move hstage (.openDir _ _ _ _ hdir)
    · cases h
      exact move hstage (.skipDir ..)
  · rename_i hstage
    split at h
    · cases h
      exact .unlinkPart hstage
    · cases h
  · rename_i hstage
    cases h
    exact .rmdir hstage
  · rename_i hstage
    cases h
    exact move hstage (.skipDir ..)
  · rename_i hstage
    cases h
    exact move hstage (.giveUp ..)
  · rename_i hstage
    cases h
    exact move hstage .cleanStale
  · rename_i hstage
    cases h
    exact move hstage (.cleanOwn _)
  · rename_i hstage
    cases h
    exact .openLock hstage
  · rename_i hstage
    cases h
    exact move hstage .openFail
  · rename_i hstage
    split at h
    · rename_i hfree
      cases h
      exact .tryLock hstage hfree
    · cases h
      exact .refused hstage
  · rename_i hstage
    split at h
    · rename_i hdir
      cases h
      exact .mkdir hstage hdir
    · split at h
      · cases h
        exact move hstage (.gitStart _)
      · cases h
        exact move hstage (.failStart _)
  · rename_i hstage
    split at h
    · rename_i hdir
      cases h
      exact .gitWrite (.inl ⟨_, hstage⟩) hdir
    · cases h
  · rename_i hstage
    split at h
    · rename_i hdir
      cases h
      exact .gitWrite (.inr hstage) hdir
    · cases h
  · rename_i hstage
    cases h
    exact .gitRemove (.inl ⟨_, hstage⟩)
  · rename_i hstage
    cases h
    exact .gitRemove (.inr hstage)
  · rename_i hstage
    cases h
    exact move hstage (.failStart _)
  · rename_i hstage
    cases h
    exact move hstage (.failClone _)
  · rename_i hstage
    split at h
    · rename_i hdir
      split at h
      · rename_i hne
        cases h
        exact .gitDone hstage hdir hne
      · cases h
    · cases h
  · rename_i hstage
    split at h
    · rename_i hdisk
      cases h
      exact .rename hstage hdisk
    · cases h
      exact move hstage (.failRename _)
  · rename_i hstage
    cases h
    exact move hstage (.failRename _)
  · rename_i hstage
    cases h
    exact .unlock hstage
  · rename_i hstage
    cases h
    exact .unlinkLock hstage
  · rename_i hstage
    cases h
    exact move hstage .leave
  · cases h

end

end Clone

end Scap
