import Scap.Clone.Stale
import Scap.Commands.Catalog
import Scap.Index.Later
import Scap.Listing.Command

/-!
# What a command works on

`create::run`, `rm::run` and `process_target` (`src/cmd`) work out a destination and then look at
it and change it.  A `Job` is one of these commands with its destination; this module has what it
looks at and what it hands to `git`, the next one its steps.  A destination whose path is relative,
or leads through `..` or through a symlink, is beyond the model.
-/

namespace Scap

namespace Commands

open Config (CommandError ConfigError ConfigSnapshot PathBuf)

/-! ## Results -/

/-- Why a command fails. -/
inductive RunError where
  /-- No destination, or a check that failed. -/
  | command (e : CommandError)
  /-- The destination is not a directory. -/
  | notDirectory (dest : PathBuf)
  /-- The destination cannot be inspected. -/
  | inspect (dest : PathBuf) (e : Errno)
  /-- `create` cannot make its directories. -/
  | mkdir (dest : PathBuf) (e : Errno)
  /-- `git init` fails. -/
  | init
  /-- Stdin cannot be read. -/
  | stdin (e : Errno)
  /-- A line of stdin is not UTF-8. -/
  | notUtf8
  /-- `rm` cannot remove everything. -/
  | remove (dest : PathBuf) (e : Errno)
  /-- A `git` that updates fails. -/
  | update
  /-- `get` cannot make the directories above the destination. -/
  | parents (e : Errno)
  /-- The lock path cannot be opened. -/
  | lock (e : Errno)
  /-- Another process has the lock; the process exits with 75. -/
  | tempFail
  /-- `git clone` fails. -/
  | clone
  /-- The temporary directory cannot be moved to the destination. -/
  | rename (dest : PathBuf) (e : Errno)

/-- The failures that come after changes at the destination. -/
def RunError.Late : RunError → Prop
  | mkdir .. | init | remove .. | update => True
  | _ => False

/-! ## Running `git` -/

/-- `git` with its arguments.  `run` is for a `git` that is run in a directory: what the directory
is before and after, and whether the command succeeds.  `clone` is for `git clone`, without the
directory to clone to among the arguments, and with what is at that path. -/
structure Git where
  run : List Str → Node → Bool → Node → Prop
  clone : List Str → Option Node → Bool → Option Node → Prop

/-- The directory has a `.git`. -/
def HoldsGit (n : Node) : Prop := succeeds (n.find true [dotGit]) = true

/-- `CloneOptions`. -/
structure CloneOptions where
  shallow : Bool
  branch : Option Str
  recursive : Bool
  bare : Bool
  partialClone : Option Str

/-- What `clone` gives to `git`, up to the directory. -/
def cloneArgs (opts : CloneOptions) (url : Str) : List Str :=
  ["clone".toList] ++
    (if opts.shallow then ["--depth".toList, "1".toList] else []) ++
    (match opts.branch with
      | some branch => ["--branch".toList, branch, "--single-branch".toList]
      | none => []) ++
    (if opts.recursive then ["--recursive".toList] else []) ++
    (if opts.bare then ["--bare".toList] else []) ++
    (if opts.partialClone = some "blobless".toList then ["--filter=blob:none".toList]
      else if opts.partialClone = some "treeless".toList then ["--filter=tree:0".toList]
      else []) ++
    [url]

/-- The `git` that `git_init` or `update` runs in the destination. -/
inductive Call where
  | init | fetchAll | upstream | fetch | pull | submodule
deriving DecidableEq

/-- What `git_init` and `update` give to `git`. -/
def Call.args (bare : Bool) (url : Str) : Call → List Str
  | init => "init".toList :: if bare then ["--bare".toList] else []
  | fetchAll => ["fetch".toList, url, "*:*".toList]
  | upstream => ["rev-parse".toList, "@\x7bupstream\x7d".toList]
  | fetch => ["fetch".toList]
  | pull => ["pull".toList, "--ff-only".toList]
  | submodule => ["submodule".toList, "update".toList, "--init".toList, "--recursive".toList]

/-- The first `git` that `update` runs. -/
def Call.first (bare : Bool) : Call := if bare then fetchAll else upstream

/-- The `git` that `update` runs after another, by whether that succeeded.  If there is none, that
was the result. -/
def Call.next (recursive : Bool) : Call → Bool → Option Call
  | upstream, true => some pull
  | upstream, false => some fetch
  | pull, true => if recursive then some submodule else none
  | _, _ => none

/-- What `git` is relied on for: run in a directory it leaves a directory, with a `.git` if it had
one, and `init` and `clone` make one with a `.git`, unless it is to be bare. -/
structure Git.Works (g : Git) : Prop where
  run_dir : ∀ args n success n', g.run args n success n' → n.fileType = .directory →
    n'.fileType = .directory
  run_git : ∀ args n success n', g.run args n success n' → HoldsGit n → HoldsGit n'
  init_git : ∀ url n n', g.run (Call.init.args false url) n true n' → HoldsGit n'
  clone_dir : ∀ opts url o n', g.clone (cloneArgs opts url) o true n' →
    ∃ m, n' = some m ∧ m.fileType = .directory
  clone_git : ∀ opts url o m, opts.bare = false → g.clone (cloneArgs opts url) o true (some m) →
    HoldsGit m

/-! ## Commands -/

/-- What a command gets from outside. -/
structure Outside where
  parse : Str → Except Str ParsedUrl
  debug : Str → Str
  aws : AwsEnv
  canon : PathBuf → Option PathBuf
  lossy : Bytes → Str
  urlmatch : Str → Except ConfigError Config.Output
  snapshot : ConfigSnapshot
  git : Git

/-- `CreateArgs`. -/
structure CreateArgs where
  vcs : Option Str
  bare : Bool
  target : Str

/-- `RmArgs`. -/
structure RmArgs where
  dryRun : Bool
  bare : Bool
  target : Str

/-- `GetArgs`, with one target. -/
structure GetArgs where
  update : Bool
  ssh : Bool
  shallow : Bool
  vcs : Option Str
  noRecursive : Bool
  branch : Option Str
  bare : Bool
  partialClone : Option Str
  target : Str

/-- A command, with what it reads from stdin or the identifier of its process. -/
inductive Command where
  | create (args : CreateArgs)
  | rm (args : RmArgs) (stdin : Except Errno Bytes)
  | get (args : GetArgs) (pid : ℕ)

/-- `validate_vcs`, with how it shows a name it does not know. -/
def validateVcs (shown : Str → Str) (vcs : Option Str) : Except CommandError Unit :=
  match vcs.filter fun vcs => !Listing.supportedVcs vcs with
  | some vcs => .error (.bail ("unsupported VCS: ".toList ++ shown vcs ++
      " (v1 supports git only; see issue tracker for non-git)".toList))
  | none => .ok ()

/-- The destination of `create::run`, after its checks. -/
def createDest (o : Outside) (args : CreateArgs) : Except CommandError PathBuf :=
  if args.target = [] then .error (.bail "repository name is required".toList)
  else do
    validateVcs (fun vcs => '"' :: vcs ++ ['"']) args.vcs
    Config.createRun o.parse o.debug o.aws o.canon o.lossy o.urlmatch o.snapshot args.bare
      args.target

/-- The destination of `rm::run`. -/
def rmDest (o : Outside) (args : RmArgs) : Except CommandError PathBuf :=
  Config.rmRun o.parse o.debug o.aws o.canon o.lossy o.urlmatch o.snapshot args.bare args.target

/-- The destination of `process_target`, after the check of `get::run`. -/
def getDest (o : Outside) (args : GetArgs) : Except CommandError PathBuf := do
  validateVcs o.debug args.vcs
  Config.processTarget o.parse o.debug o.aws o.canon o.lossy o.urlmatch o.snapshot args.ssh
    args.bare args.target

/-- What `process_target` clones or updates from, if the target is one. -/
def getUrl (o : Outside) (args : GetArgs) : Str :=
  match fromInput o.parse o.debug o.aws args.target o.snapshot.user o.snapshot.completeUser with
  | .ok repo => Config.getRemote args.ssh repo
  | .error _ => []

/-- The `CloneOptions` of `clone_with_lock`. -/
def GetArgs.cloneOptions (args : GetArgs) : CloneOptions :=
  ⟨args.shallow, args.branch, !args.noRecursive, args.bare, args.partialClone⟩

namespace Command

/-- The destination. -/
def dest (o : Outside) : Command → Except CommandError PathBuf
  | create args => createDest o args
  | rm args _ => rmDest o args
  | get args _ => getDest o args

/-- Whether the repository is bare. -/
def bare : Command → Bool
  | create args => args.bare
  | rm args _ => args.bare
  | get args _ => args.bare

/-- What a `git` in the destination is given for the URL. -/
def url (o : Outside) : Command → Str
  | get args _ => getUrl o args
  | _ => []

end Command

/-- The names on the way to an absolute path without `..`. -/
def namesOf : List Config.Component → Option (List Bytes)
  | .rootDir :: rest => rest.mapM fun
    | .normal name => some name
    | _ => none
  | _ => none

/-- Where an absolute path without `..` leads. -/
def placeOf (path : PathBuf) : Option (List Bytes) := namesOf (Config.components path)

/-- A command that has a destination: an absolute path without `..`. -/
structure Job (o : Outside) where
  command : Command
  dest : PathBuf
  /-- The directories above the destination, and its name. -/
  above : List Bytes
  name : Bytes
  leads : command.dest o = .ok dest
  placed : placeOf dest = some (above ++ [name])

/-! ## Names beside the destination -/

namespace Job

variable {o : Outside} (j : Job o)

/-- Where the destination is. -/
def place : List Bytes := j.above ++ [j.name]

/-- The name as text, in `lock_path_for` and `tmp_path_for`. -/
def label : Str := (fromUtf8 j.name).getD "scap".toList

/-- `lock_path_for`. -/
def lockPath : List Bytes := j.above ++ [toBytes (".scap-lock-".toList ++ j.label)]

/-- The path of a temporary directory, with its suffix. -/
def tmpOf (suffix : Str) : List Bytes := j.above ++ [toBytes (j.label ++ ".tmp-".toList ++ suffix)]

/-- `tmp_path_for`. -/
def tmpPath (pid : ℕ) : List Bytes := j.tmpOf (Clone.decimal pid)

end Job

/-- What `read_dir` lists. -/
def readDir (t : Tree) (path : List Config.Component) : Option (List Bytes) :=
  match (namesOf path).bind fun p => t.root.at? p with
  | some (.dir _ true _ entries) => some (entries.map Prod.fst)
  | _ => none

/-! ## Looking at the destination -/

/-- No symlink is at the path or on the way to it. -/
def Direct (t : Tree) (p : List Bytes) : Prop :=
  ∀ q, q <+: p → ∀ attr resolve, t.root.at? q ≠ some (.link attr resolve)

/-- `is_not_exist_or_empty`. -/
def isNotExistOrEmpty (t : Tree) (dest : PathBuf) (p : List Bytes) : Except RunError Bool :=
  match t.root.openDir p with
  | .ok () =>
    match t.root.at? p with
    | some (.dir _ _ _ entries) => .ok entries.isEmpty
    | _ => .ok true
  | .error .NOENT => .ok true
  | .error .NOTDIR => .error (.notDirectory dest)
  | .error e => .error (.inspect dest e)

/-- Whether a path below an object leads to something of a type. -/
def leadsTo (fileType : FileType) (n : Node) (path : List Bytes) : Bool :=
  match n.find true path with
  | .ok stat => stat.fileType = fileType
  | .error _ => false

/-- `dest_is_git_repo`, with the destination's name and what is there. -/
def destIsGitRepo (name : Bytes) : Option Node → Bool
  | none => false
  | some n =>
    leadsTo .directory n [dotGit] ||
      ((fromUtf8 name).any fun name => ".git".toList.isSuffixOf name) &&
        leadsTo .regularFile n [ascii "HEAD".toList] &&
        leadsTo .directory n [ascii "objects".toList] &&
        leadsTo .directory n [ascii "refs".toList]

/-- `println!` of some text and a path. -/
def line (lossy : Bytes → Str) (text : Str) (path : PathBuf) : Bytes :=
  toBytes (text ++ lossy path ++ ['\n'])

/-- `BufRead::read_line`: the bytes up to the first newline, or all. -/
def readLine (input : Bytes) : Bytes :=
  match input.dropWhile (· ≠ 0x0a) with
  | [] => input
  | newline :: _ => input.takeWhile (· ≠ 0x0a) ++ [newline]

/-- `confirm`, with what stdin holds. -/
def confirm (stdin : Except Errno Bytes) : Except RunError Bool :=
  match stdin with
  | .error e => .error (.stdin e)
  | .ok input =>
    match fromUtf8 (readLine input) with
    | none => .error .notUtf8
    | some text => .ok (text.rdropWhile (fun c => c = '\n' || c = '\r') = ['y'])

end Commands

/-! ## What the checks see -/

namespace Node

/-- What can be opened is a directory. -/
lemma exists_dir_of_openDir {n : Node} {p : List Bytes} (h : n.openDir p = .ok ()) :
    ∃ attr r x entries, n.at? p = some (.dir attr r x entries) := by
  induction p generalizing n with
  | nil =>
    cases n with
    | dir attr r x entries => exact ⟨attr, r, x, entries, rfl⟩
    | _ => simp [openDir] at h
  | cons name p ih =>
    cases n with
    | dir attr r x entries =>
      rw [openDir] at h
      split at h
      · cases h
      · split at h
        · rename_i m hm
          obtain ⟨attr', r', x', entries', hat⟩ := ih h
          exact ⟨attr', r', x', entries', by rw [at?, hm, Option.bind_some, hat]⟩
        · cases h
    | _ => simp [openDir] at h

/-- What does not exist has only directories above it. -/
lemma clear_of_openDir {n : Node} {p : List Bytes} (h : n.openDir p = .error .NOENT) :
    Clear (some n) p ∧ n.at? p = none := by
  induction p generalizing n with
  | nil =>
    cases n with
    | dir attr r x entries =>
      rw [openDir] at h
      split at h <;> cases h
    | _ => simp [openDir] at h
  | cons name p ih =>
    cases n with
    | dir attr r x entries =>
      have hcons : Clear (lookup entries name) p →
          Clear (some (dir attr r x entries)) (name :: p) := by
        intro hclear q m hq hne hm
        cases q with
        | nil =>
          obtain rfl := Option.some.inj ((under_nil _).symm.trans hm)
          rfl
        | cons name' q =>
          obtain ⟨rfl, hrest⟩ := List.cons_prefix_cons.mp hq
          exact hclear q m hrest (fun heq => hne (heq ▸ rfl)) hm
      rw [openDir] at h
      split at h
      · cases h
      · split at h
        · rename_i m hm
          obtain ⟨hclear, hat⟩ := ih h
          exact ⟨hcons (by rwa [hm]), by rw [at?, hm, Option.bind_some, hat]⟩
        · rename_i hm
          refine ⟨hcons ?_, by rw [at?, hm, Option.bind_none]⟩
          rw [hm]
          exact fun q m _ _ hq => by simp at hq
    | _ => simp [openDir] at h

end Node

namespace Commands

open Config (CommandError ConfigError ConfigSnapshot PathBuf)

variable {o : Outside} {t : Tree} {dest : PathBuf} {p : List Bytes}

/-- Nothing is at the path, or an empty directory. -/
def Vacant (t : Tree) (p : List Bytes) : Prop :=
  t.root.at? p = none ∨ ∃ attr r x, t.root.at? p = some (.dir attr r x [])

/-- A destination that is found free is vacant, on a clear way. -/
lemma vacant_of_isNotExistOrEmpty (h : isNotExistOrEmpty t dest p = .ok true) :
    Node.Clear (some t.root) p ∧ Vacant t p := by
  unfold isNotExistOrEmpty at h
  split at h
  · rename_i hopen
    obtain ⟨attr, r, x, entries, hat⟩ := Node.exists_dir_of_openDir hopen
    rw [hat] at h
    obtain rfl : entries = [] := by simpa using h
    refine ⟨fun q n hq hne hn => ?_, .inr ⟨attr, r, x, hat⟩⟩
    obtain ⟨attr', r', x', entries', hdir⟩ := Tree.isDir_of_at? hat hq hne
    obtain rfl := Option.some.inj (hdir.symm.trans hn)
    rfl
  · rename_i hopen
    exact (Node.clear_of_openDir hopen).imp_right .inl
  · cases h
  · cases h

/-- Failing to look at the destination comes before any change. -/
lemma not_late_of_isNotExistOrEmpty {e : RunError} (h : isNotExistOrEmpty t dest p = .error e) :
    ¬e.Late := by
  unfold isNotExistOrEmpty at h
  split at h
  · split at h <;> cases h
  · cases h
  · cases h
    exact not_false
  · cases h
    exact not_false

/-- Failing to be confirmed comes before any change. -/
lemma not_late_of_confirm {stdin : Except Errno Bytes} {e : RunError}
    (h : confirm stdin = .error e) : ¬e.Late := by
  unfold confirm at h
  split at h
  · cases h
    exact not_false
  · split at h <;> cases h
    exact not_false

/-- A destination that is found occupied is a directory. -/
lemma isDir_of_isNotExistOrEmpty (h : isNotExistOrEmpty t dest p = .ok false) : t.IsDir p := by
  unfold isNotExistOrEmpty at h
  split at h
  · rename_i hopen
    exact Node.exists_dir_of_openDir hopen
  · cases h
  · cases h
  · cases h

/-! ## Paths -/

/-- A path that begins with the root directory begins with a slash. -/
lemma absolute_of_components {rest : List Config.Component}
    (h : Config.components dest = .rootDir :: rest) :
    dest.head? = some slash ∧ (dest.splitOn slash).filterMap Config.componentOf = rest := by
  have hnot : ∀ piece, Config.componentOf piece ≠ some .rootDir := by
    intro piece
    unfold Config.componentOf
    split_ifs <;> simp
  unfold Config.components at h
  by_cases hhead : dest.head? = some slash
  · simp only [if_pos hhead] at h
    exact ⟨hhead, (List.cons.inj h).2⟩
  simp only [if_neg hhead] at h
  split_ifs at h with hdot
  · exact absurd (List.cons.inj h).1 (by simp)
  · have hmem : Config.Component.rootDir ∈ (dest.splitOn slash).filterMap Config.componentOf := by
      rw [List.nil_append] at h
      simp [h]
    obtain ⟨piece, -, hpiece⟩ := List.mem_filterMap.mp hmem
    exact absurd hpiece (hnot piece)

/-- What `mapM` makes of the last element comes last. -/
lemma getLast?_of_mapM {α β : Type*} {f : α → Option β} {xs : List α} {ys : List β} {x : α} {y : β}
    (h : (xs ++ [x]).mapM f = some ys) (hx : f x = some y) : ys.getLast? = some y := by
  rw [List.mapM_append, List.mapM_cons, hx, List.mapM_nil] at h
  obtain ⟨init, -, h⟩ := Option.bind_eq_some_iff.mp h
  obtain rfl : init ++ [y] = ys := by simpa using h
  exact List.getLast?_concat ..

/-- The last name of a path that ends in `.git` ends in `.git`. -/
lemma bareName_of_placeOf (hsuffix : dotGit <:+ dest) (hplace : placeOf dest = some p) :
    Tree.BareName p := by
  have hslash : slash ∉ dotGit := by decide
  unfold placeOf namesOf at hplace
  split at hplace
  · rename_i rest hcomponents
    obtain ⟨hhead, rfl⟩ := absolute_of_components hcomponents
    rcases eq_last_or_append slash dest with hnot | ⟨a, last, rfl, hlast⟩
    · exact absurd (List.mem_of_mem_head? hhead) hnot
    · have hends : dotGit <:+ last := by
        have hcut : slash :: last <:+ a ++ slash :: last := List.suffix_append ..
        rcases List.suffix_or_suffix_of_suffix hsuffix hcut with h | h
        · rcases List.suffix_cons_iff.mp h with heq | h
          · exact absurd (heq ▸ List.mem_cons_self) hslash
          · exact h
        · exact absurd (h.subset List.mem_cons_self) hslash
      have hcomponent : Config.componentOf last = some (.normal last) := by
        have hlength : 4 ≤ last.length := hends.length_le
        unfold Config.componentOf
        rw [if_neg, if_neg]
        · rintro rfl
          exact absurd hlength (by decide)
        · rintro (rfl | rfl) <;> exact absurd hlength (by decide)
      rw [List.splitOn_append_cons_self, List.splitOn_eq_singleton hlast, List.filterMap_append,
        List.filterMap_cons, hcomponent, List.filterMap_nil] at hplace
      exact ⟨last, getLast?_of_mapM hplace rfl, hends⟩
  · cases hplace

/-- The destination of a bare repository ends in `.git`. -/
lemma suffix_destination {remote : Repo → Str} {bare : Bool} {target : Str}
    (h : Config.destination o.parse o.debug o.aws o.canon o.lossy o.urlmatch o.snapshot remote bare
      target = .ok dest) (hbare : bare = true) : dotGit <:+ dest := by
  obtain ⟨repo, root, rfl⟩ :
      ∃ repo root, dest = Config.pushBytes root (toBytes (relPath repo bare)) := by
    unfold Config.destination at h
    cases hrepo : fromInput o.parse o.debug o.aws target o.snapshot.user
        o.snapshot.completeUser with
    | error e => simp [hrepo, Except.mapError, bind, Except.bind] at h
    | ok repo =>
      cases hroot : Config.rootForUrl o.canon o.lossy o.urlmatch o.snapshot (remote repo) with
      | error e => simp [hrepo, hroot, Except.mapError, bind, Except.bind] at h
      | ok root =>
        simp only [hrepo, hroot, Except.mapError, bind, Except.bind, Except.ok.injEq] at h
        exact ⟨repo, root, h.symm⟩
  refine List.IsSuffix.trans ?_ (Config.suffix_pushBytes ..)
  subst hbare
  have hpush : ∀ path part : Str, part <:+ push path part := by
    intro path part
    unfold push
    split_ifs
    · exact List.suffix_refl part
    · exact List.suffix_append ..
    · exact ⟨path ++ ['/'], by simp⟩
  obtain ⟨init, hinit⟩ := (List.suffix_append repo.name ".git".toList).trans
    (hpush (((repo.owner.splitOn '/').filter (· ≠ [])).foldl push (push [] repo.host)) _)
  rw [relPath, if_pos rfl, ← hinit, toBytes_append]
  exact ⟨toBytes init, rfl⟩

/-- The last name on the way is the last component. -/
lemma namesOf_concat {path : List Config.Component} {x : Bytes} {q : List Bytes} :
    namesOf (path ++ [.normal x]) = some q ↔ ∃ a, namesOf path = some a ∧ q = a ++ [x] := by
  match path with
  | .rootDir :: rest =>
    rw [List.cons_append, namesOf, namesOf, List.mapM_append]
    simp only [List.mapM_cons, List.mapM_nil, Option.pure_def, Option.bind_eq_bind,
      Option.bind_some, Option.bind_eq_some_iff, Option.some.injEq]
    exact exists_congr fun a => and_congr_right fun _ => eq_comm
  | [] | .curDir :: _ | .parentDir :: _ | .normal _ :: _ => simp [namesOf]

/-- What follows a check that succeeds decides. -/
lemma ok_of_bind {check : Except CommandError Unit} {next : Except CommandError PathBuf}
    (h : (do check; next) = .ok dest) : next = .ok dest := by
  cases check with
  | error e => cases h
  | ok u => exact h

/-- The commands join a root and the relative path of a repository. -/
lemma exists_destination {command : Command} (h : command.dest o = .ok dest) :
    ∃ remote target, Config.destination o.parse o.debug o.aws o.canon o.lossy o.urlmatch o.snapshot
      remote command.bare target = .ok dest := by
  cases command with
  | create args =>
    rw [Command.dest, createDest] at h
    split_ifs at h
    have hrun := ok_of_bind h
    unfold Config.createRun at hrun
    split_ifs at hrun
    exact ⟨_, _, hrun⟩
  | rm args stdin =>
    rw [Command.dest, rmDest, Config.rmRun] at h
    split_ifs at h
    exact ⟨_, _, h⟩
  | get args pid => exact ⟨_, _, ok_of_bind h⟩

namespace Job

variable {j : Job o}

/-- The destination of a bare repository is named like one. -/
lemma bareName_place (h : j.command.bare = true) : Tree.BareName j.place := by
  obtain ⟨remote, target, hdest⟩ := exists_destination j.leads
  exact bareName_of_placeOf (suffix_destination hdest h) j.placed

/-- The name is the label, unless it is not UTF-8. -/
lemma name_eq_or : j.name = toBytes j.label ∨ ∀ text, j.name ≠ toBytes text := by
  cases hname : fromUtf8 j.name with
  | none =>
    refine .inr fun text heq => ?_
    rw [heq, fromUtf8_toBytes] at hname
    cases hname
  | some text => exact .inl (by rw [label, hname, Option.getD_some, fromUtf8_eq_some_iff.mp hname])

/-- A name that is longer than the label is another. -/
lemma ne_place_of_length {text : Str} (h : (toBytes j.label).length < (toBytes text).length) :
    j.above ++ [toBytes text] ≠ j.place := by
  intro heq
  obtain ⟨-, heq⟩ := List.append_inj' heq rfl
  rcases j.name_eq_or with hname | hname
  · rw [(List.cons.inj heq).1, hname] at h
    exact lt_irrefl _ h
  · exact hname text (List.cons.inj heq).1.symm

/-- A temporary directory is not the destination. -/
lemma tmpOf_ne_place (suffix : Str) : j.tmpOf suffix ≠ j.place := by
  have hlength : (toBytes ".tmp-".toList).length = 5 := by decide
  refine ne_place_of_length ?_
  rw [toBytes_append, toBytes_append, List.length_append, List.length_append]
  omega

/-- The lock path is not the destination. -/
lemma lockPath_ne_place : j.lockPath ≠ j.place := by
  have hlength : (toBytes ".scap-lock-".toList).length = 11 := by decide
  refine ne_place_of_length ?_
  rw [toBytes_append, List.length_append]
  omega

end Job

end Commands

end Scap
