import Scap.Commands.Jobs

/-!
# How a command changes the file system

One step of a job is a call of the system, or a change that a `git` it has started makes in its
directory, so that the steps of other jobs may come between any two.  A step that changes something
does so at one of a few paths (`Job.Foot`), beside the destination (`Beside`) or at it (`Within`).
A job that takes no further step has been killed.

The jobs of a run do not meet: the locks and the races for one destination are the subject of
`Scap.Clone`, and here a lock that somebody else holds is one more way to fail.
-/

namespace Scap

namespace Commands

open Config (CommandError PathBuf)

variable {o : Outside}

/-! ## Stages -/

/-- Where a job stands. -/
inductive Stage where
  /-- Before the destination is looked at. -/
  | ready
  /-- `create`: in `create_dir_all`. -/
  | making
  /-- Before a `git` is started in the destination. -/
  | calling (call : Call)
  /-- A `git` is at work in the destination; the directory when it was started. -/
  | working (call : Call) (n : Node)
  /-- `rm`: before `confirm`. -/
  | asking
  /-- `rm`: in `remove_dir_all`. -/
  | removing
  /-- `get`: before `stale_tmp_paths`. -/
  | sweeping
  /-- `get`: before `remove_dir_all` on each of these, or in it. -/
  | cleaning (stale : List (List Bytes))
  /-- `get`: before the lock path is opened. -/
  | opening
  /-- `get`: before `try_lock`. -/
  | opened
  /-- `get`: before `git clone` is started. -/
  | cloning
  /-- `get`: `git clone` is at work; what was at the temporary path when it was started. -/
  | filling (n : Option Node)
  /-- `get`: before the `rename`. -/
  | cloned
  /-- `get`: in `remove_dir_all` on the temporary directory. -/
  | discarding (e : RunError)
  /-- `get`: before the lock path is removed. -/
  | unlocking (result : Except RunError Bytes)
  /-- The result, with what was printed. -/
  | done (result : Except RunError Bytes)

/-- What `rm` does with the answer. -/
def answered (stdin : Except Errno Bytes) : Stage :=
  match confirm stdin with
  | .error e => .done (.error e)
  | .ok false => .done (.error (.command (.bail "aborted".toList)))
  | .ok true => .removing

namespace Job

variable (j : Job o)

/-- What the job does once it has looked at the destination. -/
def look (t : Tree) : Stage :=
  match j.command with
  | .create _ =>
    match isNotExistOrEmpty t j.dest j.place with
    | .error e => .done (.error e)
    | .ok false => .done (.error (.command (.bail ("directory \"".toList ++ o.lossy j.dest ++
        "\" already exists and not empty".toList))))
    | .ok true => .making
  | .rm args _ =>
    match isNotExistOrEmpty t j.dest j.place with
    | .error e => .done (.error e)
    | .ok true => .done (.error (.command (.bail ("directory \"".toList ++ o.lossy j.dest ++
        "\" does not exist".toList))))
    | .ok false =>
      if args.dryRun then .done (.ok (line o.lossy "Would remove ".toList j.dest)) else .asking
  | .get args _ =>
    if destIsGitRepo j.name (t.root.at? j.place) then
      if args.update then .calling (Call.first args.bare) else .done (.ok [])
    else .sweeping

/-- Whether submodules are updated. -/
def recursive : Bool :=
  match j.command with
  | .get args _ => !args.noRecursive
  | _ => false

/-- What the job does once a `git` in the destination has returned. -/
def returned (call : Call) (success : Bool) : Stage :=
  match call with
  | .init => .done (if success then .ok (line o.lossy [] j.dest) else .error .init)
  | call =>
    match call.next j.recursive success with
    | some next => .calling next
    | none => .done (if success then .ok [] else .error .update)

/-- What `create_dir_all` is to make. -/
def goal (stage : Stage) : Option (List Bytes) :=
  match j.command, stage with
  | .create _, .making => some j.place
  | .get .., .opening | .get .., .cloning | .get .., .cloned => some j.above
  | _, _ => none

/-- What the job does when `create_dir_all` fails. -/
def blocked (e : Errno) : Stage → Stage
  | .making => .done (.error (.mkdir j.dest e))
  | .opening => .done (.error (.parents e))
  | _ => .discarding (.parents e)

/-- `stale_tmp_paths`. -/
def staleTmpPaths (alive : ℕ → Bool) (t : Tree) : List (List Bytes) :=
  (Clone.staleTmpPaths alive (readDir t) j.dest).filterMap namesOf

end Job

/-! ## Steps -/

section

variable (j : Job o)

/-- A step that changes nothing but the stage. -/
inductive Move (t : Tree) : Stage → Stage → Prop
  | look : Direct t j.place → Move t .ready (j.look t)
  | answer {args : RmArgs} {stdin : Except Errno Bytes} : j.command = .rm args stdin →
      Move t .asking (answered stdin)
  | blocked {stage : Stage} {goal : List Bytes} (e : Errno) : j.goal stage = some goal →
      Move t stage (j.blocked e stage)
  | made {args : CreateArgs} : j.command = .create args → t.IsDir j.place →
      Move t .making (.calling .init)
  | call {call : Call} {n : Node} : t.root.at? j.place = some n →
      Move t (.calling call) (.working call n)
  | callFail {call : Call} : Move t (.calling call) (j.returned call false)
  | removeFail (e : Errno) : Move t .removing (.done (.error (.remove j.dest e)))
  | sweep (alive : ℕ → Bool) : Move t .sweeping (.cleaning (j.staleTmpPaths alive t))
  | skip {q : List Bytes} {stale : List (List Bytes)} :
      Move t (.cleaning (q :: stale)) (.cleaning stale)
  | swept : Move t (.cleaning []) .opening
  | openOld {attr : Attr} {fileType : FileType} {plain : _} :
      t.root.at? j.lockPath = some (.file attr fileType plain) → Move t .opening .opened
  | openFail (e : Errno) : Move t .opening (.done (.error (.lock e)))
  | lock : Move t .opened .cloning
  | refused : Move t .opened (.done (.error .tempFail))
  | clone {args : GetArgs} {pid : ℕ} : j.command = .get args pid →
      Move t .cloning (.filling (t.root.at? (j.tmpPath pid)))
  | cloneFail : Move t .cloning (.discarding .clone)
  | renameFail (e : Errno) : Move t .cloned (.discarding (.rename j.dest e))
  | discardFail {e : RunError} : Move t (.discarding e) (.unlocking (.error e))
  | unlinkFail {args : GetArgs} {pid : ℕ} {result : Except RunError Bytes} :
      j.command = .get args pid → Move t (.unlocking result) (.done result)

/-- `remove_dir_all` can remove what is at the path: it is a directory, a symlink or nothing. -/
def NotFile (t : Tree) (q : List Bytes) : Prop :=
  ∀ attr fileType plain, t.root.at? q ≠ some (.file attr fileType plain)

/-- A step of `get` that changes something beside the destination. -/
inductive Beside (args : GetArgs) (pid : ℕ) (t t' : Tree) : Stage → Stage → Prop
  | mkdir {stage : Stage} {q : List Bytes} {attr : Attr} : j.goal stage = some j.above →
      q <+: j.above → t.root.at? q = none → t.Puts t' q (some (Node.emptyDir attr)) →
      Beside args pid t t' stage stage
  | cleanPart {q : List Bytes} {stale : List (List Bytes)} {n : Node} : t.IsDir q →
      n.fileType = .directory → t.Puts t' q (some n) →
      Beside args pid t t' (.cleaning (q :: stale)) (.cleaning (q :: stale))
  | clean {q : List Bytes} {stale : List (List Bytes)} : NotFile t q → t.Puts t' q none →
      Beside args pid t t' (.cleaning (q :: stale)) (.cleaning stale)
  | openNew {attr : Attr} {plain : _} : t.root.at? j.lockPath = none →
      t.Puts t' j.lockPath (some (.file attr .regularFile plain)) →
      Beside args pid t t' .opening .opened
  | fill {n new : Option Node} : t.Puts t' (j.tmpPath pid) new →
      Beside args pid t t' (.filling n) (.filling n)
  | cloned {n new : Option Node} {success : Bool} :
      o.git.clone (cloneArgs args.cloneOptions (getUrl o args)) n success new →
      t.Puts t' (j.tmpPath pid) new →
      Beside args pid t t' (.filling n) (if success then .cloned else .discarding .clone)
  | discardPart {n : Node} {e : RunError} : t.IsDir (j.tmpPath pid) → n.fileType = .directory →
      t.Puts t' (j.tmpPath pid) (some n) → Beside args pid t t' (.discarding e) (.discarding e)
  | discard {e : RunError} : NotFile t (j.tmpPath pid) → t.Puts t' (j.tmpPath pid) none →
      Beside args pid t t' (.discarding e) (.unlocking (.error e))
  | unlink {result : Except RunError Bytes} : ¬t.IsDir j.lockPath → t.Puts t' j.lockPath none →
      Beside args pid t t' (.unlocking result) (.done result)

/-- A step that changes something at the destination. -/
inductive Within (t t' : Tree) : Stage → Stage → Prop
  | mkdir {q : List Bytes} {attr : Attr} : j.goal .making = some j.place → q <+: j.place →
      t.root.at? q = none → t.Puts t' q (some (Node.emptyDir attr)) → Within t t' .making .making
  | work {call : Call} {n n' : Node} : n'.fileType = .directory →
      t.Puts t' j.place (some n') → Within t t' (.working call n) (.working call n)
  | returned {call : Call} {n n' : Node} {success : Bool} :
      o.git.run (call.args j.command.bare (j.command.url o)) n success n' →
      t.Puts t' j.place (some n') → Within t t' (.working call n) (j.returned call success)
  | removePart {n : Node} : n.fileType = .directory → t.Puts t' j.place (some n) →
      Within t t' .removing .removing
  | remove : t.Puts t' j.place none →
      Within t t' .removing (.done (.ok (line o.lossy "Removed ".toList j.dest)))
  -- The destination and the temporary directory change together.
  | rename {args : GetArgs} {pid : ℕ} {m : Node} {t₁ : Tree} : j.command = .get args pid →
      t.root.at? (j.tmpPath pid) = some m → m.fileType = .directory → Vacant t j.place →
      t.Puts t₁ j.place (some m) → t₁.Accessible → t₁.Puts t' (j.tmpPath pid) none →
      Within t t' .cloned (.unlocking (.ok []))

/-- One step of a job. -/
inductive Step : Stage → Tree → Stage → Tree → Prop
  | move {t : Tree} {a b : Stage} : Move j t a b → Step a t b t
  | beside {args : GetArgs} {pid : ℕ} {t t' : Tree} {a b : Stage} : j.command = .get args pid →
      Beside j args pid t t' a b → Step a t b t'
  | within {t t' : Tree} {a b : Stage} : Within j t t' a b → Step a t b t'

end

end Commands

end Scap
