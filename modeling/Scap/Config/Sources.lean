import Scap.Config.Agreement
import Scap.Config.Roots
import Scap.Foundations.Stutter
import Scap.Walk.Walker

/-!
# Where the configuration comes from

`load` (`src/config.rs`) and the list of gitconfig files it parses (`src/config/sources.rs`).  Git
is run for the configuration only when some trigger applies; the triggers are tested in stages, as
soon as what they depend on is known.

The file system, the discovery of repositories and the parser of single files, which follows
includes, are third-party code and parameters.  One file that is reachable under two spellings is
parsed once, where git reads it twice: `load_unseen` says that this cannot be seen, nor which of the
two backends loaded the snapshot.
-/

namespace Scap

namespace Config

/-- `Env`. -/
structure LoadEnv extends Env where
  xdgConfigHome : Option PathBuf
  gitConfigGlobal : Option PathBuf
  gitConfigSystem : Option PathBuf
  gitConfigNosystem : Option Bytes
  gitConfigCount : Option Bytes
  gitConfigParameters : Option Bytes
  gitDir : Option PathBuf
  gitCeilingDirectories : Option Bytes
  scapConfigBackend : Option Bytes
  cwd : Option PathBuf
  path : Option Bytes
  systemProbeCandidates : List PathBuf
deriving DecidableEq

/-- `gix_config::Source`, as far as it is used. -/
inductive Source where
  | system | git | user | repository | worktree
deriving DecidableEq

/-- What is outside. -/
structure ConfigHost where
  /-- `Path::is_file`. -/
  isFile : PathBuf → Bool
  /-- A file with some permission to execute. -/
  isExecutable : PathBuf → Bool
  /-- `std::fs::canonicalize`. -/
  canon : PathBuf → Option PathBuf
  /-- `gix_discover::upwards_opts`, from a directory and below the ceilings. -/
  discover : PathBuf → List PathBuf → Option PathBuf
  /-- `gix_discover::path::from_plain_file_relative_to_file`. -/
  plainFile : PathBuf → Option PathBuf
  /-- `gix_config::File::from_bytes_no_includes`, of a file that can be read. -/
  parseAlone : PathBuf → Option (List Section)
  /-- The sections of a file that exists and those of its includes, or why it cannot be parsed;
  conditions are evaluated against a git directory. -/
  parseFile : Option PathBuf → PathBuf → Option (Except Str (List Section))
  /-- `git config --list -z --show-origin`, run by a program. -/
  git : PathBuf → LoadEnv → Except ConfigError Output

/-- How `load` fails. -/
inductive LoadError where
  | config (err : ConfigError)
  | parse (path : PathBuf) (source : Str)
deriving DecidableEq

/-! ## Triggers -/

/-- `str::parse::<u64>`. -/
def parseU64 (text : Str) : Option ℕ :=
  let digits := match text with
    | '+' :: digits => digits
    | digits => digits
  if digits ≠ [] ∧ digits.all (isDigit 10) ∧ fromDigits 10 digits < 2 ^ 64 then
    some (fromDigits 10 digits)
  else none

/-- `git_config_count_applies`. -/
def gitConfigCountApplies (value : Bytes) : Bool :=
  match fromUtf8 value with
  | none => true
  | some [] => false
  | some text => (parseU64 text).all (0 < ·)

/-- `needs_git_backend`. -/
def needsGitBackend (env : LoadEnv) (systemProbeMatches : ℕ) (includeifUnevaluated : Bool) :
    Option Reason :=
  if env.scapConfigBackend = some (ascii "git".toList) then some .envOverride
  else if env.gitConfigCount.any gitConfigCountApplies then some .gitConfigCount
  else if env.gitConfigParameters.isSome then some .gitConfigParameters
  else if 1 < systemProbeMatches then some .systemProbeAmbiguous
  else if includeifUnevaluated then some .includeifUnevaluated
  else none

/-- `has_unevaluable_includeif`. -/
def hasUnevaluableIncludeif (file : List Section) : Bool :=
  file.any fun sec => decide (eqIgnoreAsciiCase sec.name (ascii "includeIf".toList)) &&
    sec.subsection.any fun condition =>
      (ascii "onbranch:".toList).isPrefixOf (lower condition) ||
        (ascii "hasconfig:".toList).isPrefixOf (lower condition)

/-! ## Sources -/

/-- `truthy`. -/
def truthy (value : Option Bytes) : Bool :=
  match value with
  | none => false
  | some value =>
    match fromUtf8 value with
    | none => true
    | some text => !(["".toList, "0".toList, "false".toList, "no".toList, "off".toList].contains
        (toAsciiLowercase text))

/-- `SourceList`. -/
structure SourceList where
  files : List (PathBuf × Source)
  systemProbeMatches : ℕ
  gitDir : Option PathBuf
deriving DecidableEq

section

variable (host : ConfigHost) (env : LoadEnv)

/-- `probe_system_config`. -/
def probeSystemConfig (candidates : List PathBuf) : List PathBuf := candidates.filter host.isFile

/-- `resolve_git_program`. -/
def resolveGitProgram : Option PathBuf :=
  env.path.bind fun path =>
    ((splitPaths path).filter (· ≠ [])).map (pushBytes · (ascii "git".toList)) |>.find?
      fun candidate => host.isFile candidate && host.isExecutable candidate

/-- `discover_git_dir`. -/
def discoverGitDir : Option PathBuf :=
  match env.gitDir with
  | some explicit => some explicit
  | none => env.cwd.bind fun cwd =>
      host.discover cwd ((env.gitCeilingDirectories.map splitPaths).getD [])

/-- `common_dir_of`. -/
def commonDirOf (gitDir : PathBuf) : PathBuf :=
  (host.plainFile (pushBytes gitDir (ascii "commondir".toList))).getD gitDir

/-- `worktree_config_enabled`. -/
def worktreeConfigEnabled (localConfig : PathBuf) : Bool :=
  ((host.parseAlone localConfig).bind fun file =>
    booleanOf file (ascii "extensions".toList) (ascii "worktreeConfig".toList)).getD false

/-- The system files of `enumerate`, and how many candidates exist. -/
def systemFiles : List (PathBuf × Source) × ℕ :=
  match env.gitConfigSystem with
  | some explicit => ([(explicit, .system)], 0)
  | none =>
    if truthy env.gitConfigNosystem then ([], 0)
    else
      let matched := probeSystemConfig host env.systemProbeCandidates
      (matched.map fun path => (path, .system), matched.length)

/-- The candidates of `enumerate` for the user's files. -/
def globalCandidates : List (PathBuf × Source) :=
  match env.gitConfigGlobal with
  | some explicit => [(explicit, .user)]
  | none =>
    let xdg := env.xdgConfigHome.or (env.home.map (pushBytes · (ascii ".config".toList)))
    (xdg.map fun xdg => (pushBytes (pushBytes xdg (ascii "git".toList)) (ascii "config".toList),
        Source.git)).toList ++
      (env.home.map fun home => (pushBytes home (ascii ".gitconfig".toList), Source.user)).toList

/-- The files of `enumerate` whose canonical paths were not seen. -/
def unseen (canon : PathBuf → Option PathBuf) (seen : List PathBuf) :
    List (PathBuf × Source) → List (PathBuf × Source)
  | [] => []
  | (path, source) :: rest =>
    let key := resolved canon path
    if seen.contains key then unseen canon seen rest
    else (path, source) :: unseen canon (seen ++ [key]) rest

/-- The files of `enumerate` in a repository. -/
def repositoryFiles (gitDir : Option PathBuf) : List (PathBuf × Source) :=
  match gitDir with
  | none => []
  | some gitDir =>
    let localConfig := pushBytes (commonDirOf host gitDir) (ascii "config".toList)
    let worktree := pushBytes gitDir (ascii "config.worktree".toList)
    if host.isFile worktree && worktreeConfigEnabled host localConfig then
      [(localConfig, .repository), (worktree, .worktree)]
    else [(localConfig, .repository)]

/-- `enumerate`. -/
def enumerate : SourceList where
  files := (systemFiles host env).1 ++ unseen host.canon [] (globalCandidates env) ++
    repositoryFiles host (discoverGitDir host env)
  systemProbeMatches := (systemFiles host env).2
  gitDir := discoverGitDir host env

/-- `parse`: `from_paths_metadata_buf` reads a path once and skips a file that does not exist. -/
def parse (list : SourceList) : Except LoadError (Option (List Section)) :=
  match ((list.files.map Prod.fst).eraseDups.filterMap (host.parseFile list.gitDir)).mapM id with
  | .error source => .error (.parse ((list.files.head?.map Prod.fst).getD []) source)
  | .ok [] => .ok none
  | .ok parts => .ok (some parts.flatten)

/-! ## Loading -/

variable (interpolate : Env → Bytes → Option PathBuf) (lossy : Bytes → Str)

/-- `reason_text`. -/
def reasonText : Reason → Str
  | .envOverride => "SCAP_CONFIG_BACKEND=git".toList
  | .gitConfigCount => "GIT_CONFIG_COUNT is set".toList
  | .gitConfigParameters => "GIT_CONFIG_PARAMETERS is set".toList
  | .systemProbeAmbiguous => "the system gitconfig probe matched more than one file".toList
  | .includeifUnevaluated =>
    "an includeIf onbranch:/hasconfig: condition needs git to evaluate it".toList
  | .inProcess | .urlSections => "the in-process snapshot was declined".toList

/-- `git_backend::load`. -/
def gitLoad (reason : Reason) : Except LoadError ConfigSnapshot :=
  match resolveGitProgram host env with
  | none => .error (.config (.gitRequired (reasonText reason)))
  | some program =>
    match host.git program env with
    | .error err => .error (.config err)
    | .ok output =>
      match output.code with
      | some 0 => .ok (fromListing interpolate lossy output.stdout env.toEnv reason)
      | some 1 => .ok (fromListing interpolate lossy [] env.toEnv reason)
      | some status =>
        .error (.config (.gitConfigFailed "--list".toList status (lossy output.stderr)))
      | none => .error (.config (.gitConfigFailed "--list".toList (-1) (lossy output.stderr)))

/-- `load`. -/
def load : Except LoadError ConfigSnapshot :=
  match needsGitBackend env 0 false with
  | some reason => gitLoad host env interpolate lossy reason
  | none =>
    let list := enumerate host env
    match needsGitBackend env list.systemProbeMatches false with
    | some reason => gitLoad host env interpolate lossy reason
    | none =>
      match parse host list with
      | .error err => .error err
      | .ok file =>
        match needsGitBackend env list.systemProbeMatches (file.any hasUnevaluableIncludeif) with
        | some reason => gitLoad host env interpolate lossy reason
        | none => .ok (fromFile interpolate lossy file env.toEnv)

/-! ## What is loaded -/

/-- The trigger that applies, if one does, once everything is known. -/
def trigger : Option Reason :=
  let list := enumerate host env
  needsGitBackend env list.systemProbeMatches <|
    match parse host list with
    | .ok file => file.any hasUnevaluableIncludeif
    | .error _ => false

/-- The files that git reads, in its order. -/
def candidates : List (PathBuf × Source) :=
  (systemFiles host env).1 ++ globalCandidates env ++ repositoryFiles host (discoverGitDir host env)

/-- The sections of a file, if it exists and can be parsed. -/
def parsedSections : Option (Except Str (List Section)) → List Section
  | some (.ok sections) => sections
  | _ => []

/-- The sections of the files that exist. -/
def sectionsOf (files : List (PathBuf × Source)) : List Section :=
  files.flatMap fun file => parsedSections (host.parseFile (discoverGitDir host env) file.1)

/-- The section without its origin. -/
def Section.anonymous (sec : Section) : Section := { sec with origin := [] }

/-- What a file holds does not depend on how its path is spelled. -/
def SameUnderSpellings : Prop :=
  ∀ p q, resolved host.canon p = resolved host.canon q →
    (host.parseFile (discoverGitDir host env) p).map (Except.map (List.map Section.anonymous)) =
      (host.parseFile (discoverGitDir host env) q).map (Except.map (List.map Section.anonymous))

/-- Git has listed what is in the candidates, or said that there is nothing. -/
def GitLists (output : Output) : Prop :=
  output.code = some 0 ∧ output.stdout = listing (sectionsOf host env (candidates host env)) ∨
    output.code = some 1 ∧ listing (sectionsOf host env (candidates host env)) = []

/-- The environment with `SCAP_CONFIG_BACKEND=git`. -/
def LoadEnv.forced (env : LoadEnv) : LoadEnv :=
  { env with scapConfigBackend := some (ascii "git".toList) }

/-- The snapshots cannot be told apart by what the commands ask of them. -/
structure Alike (s t : ConfigSnapshot) : Prop where
  roots : ∀ all, resolveRoots host.canon s all = resolveRoots host.canon t all
  rootForUrl : ∀ (lossy : Bytes → Str) (git : Str → Except ConfigError Output) (url : Str),
    rootForUrl host.canon lossy git s url = rootForUrl host.canon lossy git t url
  user : s.user = t.user
  completeUser : s.completeUser = t.completeUser
  excluded : ∀ (wildmatch : Bytes → Bytes → Bool) (path : Bytes),
    isExcluded wildmatch (s.listExclude.map toBytes) path =
      isExcluded wildmatch (t.listExclude.map toBytes) path
  listCache : s.listCache = t.listCache

end

/-! ## Stages -/

section

variable {host : ConfigHost} {env : LoadEnv} {interpolate : Env → Bytes → Option PathBuf}
  {lossy : Bytes → Str}

/-- A trigger goes on to apply when more is known. -/
lemma needsGitBackend_mono {m m' : ℕ} {b : Bool} {reason : Reason} (hm : m ≤ m')
    (h : needsGitBackend env m false = some reason) : needsGitBackend env m' b = some reason := by
  unfold needsGitBackend at h ⊢
  by_cases hprobe : 1 < m
  · have hprobe' : 1 < m' := hprobe.trans_le hm
    simpa only [hprobe, hprobe', if_true] using h
  · simp only [hprobe, Bool.false_eq_true, if_false] at h
    split_ifs at h ⊢ <;> exact h

/-- Where no trigger applies to more, none applies to less. -/
lemma needsGitBackend_eq_none {m m' : ℕ} {b : Bool} (hm : m ≤ m')
    (h : needsGitBackend env m' b = none) : needsGitBackend env m false = none := by
  by_contra hsome
  obtain ⟨reason, hreason⟩ := Option.ne_none_iff_exists'.mp hsome
  rw [needsGitBackend_mono hm hreason] at h
  cases h

/-- The stages come to the trigger that applies in the end. -/
lemma load_of_trigger {reason : Reason} (h : trigger host env = some reason) :
    load host env interpolate lossy = gitLoad host env interpolate lossy reason := by
  unfold trigger at h
  unfold load
  cases hfirst : needsGitBackend env 0 false with
  | some first =>
    obtain rfl := Option.some.inj ((needsGitBackend_mono (Nat.zero_le _) hfirst).symm.trans h)
    rfl
  | none =>
    cases hsecond : needsGitBackend env (enumerate host env).systemProbeMatches false with
    | some second =>
      obtain rfl := Option.some.inj ((needsGitBackend_mono le_rfl hsecond).symm.trans h)
      simp only [hsecond]
    | none =>
      cases hparse : parse host (enumerate host env) with
      | error err =>
        simp only [hparse] at h
        rw [hsecond] at h
        cases h
      | ok file =>
        simp only [hparse] at h
        simp only [hsecond, hparse, h]

/-- Without a trigger the files are parsed in process. -/
lemma load_of_not_trigger (h : trigger host env = none) :
    load host env interpolate lossy =
      (parse host (enumerate host env)).map fun file =>
        fromFile interpolate lossy file env.toEnv := by
  unfold trigger at h
  unfold load
  simp only [needsGitBackend_eq_none (Nat.zero_le _) h, needsGitBackend_eq_none le_rfl h]
  cases hparse : parse host (enumerate host env) with
  | error err => rfl
  | ok file =>
    simp only [hparse] at h
    simp only [h]
    rfl

/-! ## Spellings -/

/-- A list without duplicates keeps all its elements. -/
lemma eraseDups_of_nodup {paths : List PathBuf} (h : paths.Nodup) : paths.eraseDups = paths := by
  induction paths with
  | nil => rfl
  | cons path paths ih =>
    obtain ⟨hnew, hrest⟩ := List.nodup_cons.mp h
    have hfilter : paths.filter (fun other => !other == path) = paths :=
      List.filter_eq_self.mpr fun other hother => by simpa using ne_of_mem_of_not_mem hother hnew
    rw [List.eraseDups_cons, hfilter, ih hrest]

/-- What is parsed is what the files hold. -/
lemma parse_eq_ok {list : SourceList} {file : Option (List Section)}
    (hdir : list.gitDir = discoverGitDir host env) (honce : (list.files.map Prod.fst).Nodup)
    (h : parse host list = .ok file) : file.getD [] = sectionsOf host env list.files := by
  have hall : ∀ (files : List (PathBuf × Source)) (parts : List (List Section)),
      ((files.map Prod.fst).filterMap (host.parseFile list.gitDir)).mapM id = .ok parts →
        parts.flatten = sectionsOf host env files := by
    intro files
    induction files with
    | nil =>
      intro parts hparts
      cases hparts
      rfl
    | cons file files ih =>
      intro parts hparts
      rw [sectionsOf, List.flatMap_cons, ← sectionsOf, ← hdir]
      cases hfile : host.parseFile list.gitDir file.1 with
      | none =>
        simp only [List.map_cons, List.filterMap_cons, hfile] at hparts
        exact ih parts hparts
      | some contents =>
        simp only [List.map_cons, List.filterMap_cons, hfile, List.mapM_cons] at hparts
        obtain ⟨sections, rfl, hbound⟩ := bind_eq_ok.mp hparts
        obtain ⟨rest, hrest, hok⟩ := bind_eq_ok.mp hbound
        cases hok
        rw [List.flatten_cons, ih rest hrest]
        rfl
  unfold parse at h
  rw [eraseDups_of_nodup honce] at h
  split at h
  · cases h
  · rename_i hparts
    cases h
    exact hall _ _ hparts
  · rename_i parts _ hparts
    cases h
    exact hall _ _ hparts

/-- Sections without origins are parsed from contents without origins. -/
lemma map_parsedSections (contents : Option (Except Str (List Section))) :
    (parsedSections contents).map Section.anonymous =
      parsedSections (contents.map (Except.map (List.map Section.anonymous))) := by
  rcases contents with _ | _ | _ <;> rfl

/-- What git reads is what is parsed, but for a file that it reads under two spellings. -/
lemma stutter_sectionsOf (h : SameUnderSpellings host env) :
    Stutter ((sectionsOf host env (enumerate host env).files).map Section.anonymous)
      ((sectionsOf host env (candidates host env)).map Section.anonymous) := by
  have happend : ∀ xs ys, sectionsOf host env (xs ++ ys) =
      sectionsOf host env xs ++ sectionsOf host env ys := fun xs ys => List.flatMap_append
  have hglobal : Stutter
      ((sectionsOf host env (unseen host.canon [] (globalCandidates env))).map Section.anonymous)
      ((sectionsOf host env (globalCandidates env)).map Section.anonymous) := by
    have hpair : ∀ x y : PathBuf × Source,
        Stutter ((sectionsOf host env (unseen host.canon [] [x, y])).map Section.anonymous)
          ((sectionsOf host env [x, y]).map Section.anonymous) := by
      intro x y
      by_cases hkey : resolved host.canon y.1 = resolved host.canon x.1
      · have hunseen : unseen host.canon [] [x, y] = [x] := by simp [unseen, hkey]
        have hsame : (sectionsOf host env [y]).map Section.anonymous =
            (sectionsOf host env [x]).map Section.anonymous := by
          simp only [sectionsOf, List.flatMap_singleton, map_parsedSections, h _ _ hkey]
        rw [hunseen, show [x, y] = [x] ++ [y] from rfl, happend, List.map_append, hsame]
        exact Stutter.twice _
      · have hunseen : unseen host.canon [] [x, y] = [x, y] := by simp [unseen, hkey]
        rw [hunseen]
        exact Stutter.refl _
    unfold globalCandidates
    cases env.gitConfigGlobal with
    | some explicit => exact Stutter.refl _
    | none =>
      cases env.xdgConfigHome.or (env.home.map (pushBytes · (ascii ".config".toList))) <;>
        cases env.home
      · exact Stutter.refl _
      · exact Stutter.refl _
      · exact Stutter.refl _
      · exact hpair _ _
  simp only [enumerate, candidates, happend, List.map_append]
  exact (hglobal.append_left _).append_right _

/-- The roots are deduplicated. -/
lemma eraseDups_roots {xs ys us vs : List PathBuf} (hroots : Stutter xs ys) (hurl : Stutter us vs)
    (f : PathBuf → PathBuf) (p : Prop) [Decidable p] :
    ((if p then xs ++ us else xs).map f).eraseDups =
      ((if p then ys ++ vs else ys).map f).eraseDups := by
  split_ifs
  · rw [((hroots.append_right us).map f).eraseDups_eq, ((hurl.append_left ys).map f).eraseDups_eq]
  · exact (hroots.map f).eraseDups_eq

/-- A block said twice in the gitconfig cannot be told from one said once. -/
lemma alike_of_stutter {s t : ConfigSnapshot} (henv : s.env = t.env)
    (hroots : Stutter s.roots t.roots) (hurl : Stutter s.urlScopedRoots t.urlScopedRoots)
    (huser : s.user = t.user) (hcomplete : s.completeUser = t.completeUser)
    (hexclude : Stutter s.listExclude t.listExclude) (hcache : s.listCache = t.listCache) :
    Alike host s t := by
  have henvRoots : s.envRoots = t.envRoots := by
    unfold ConfigSnapshot.envRoots
    rw [henv]
  have hresolve : ∀ all, resolveRoots host.canon s all = resolveRoots host.canon t all := by
    intro all
    unfold resolveRoots ConfigSnapshot.listedRoots ConfigSnapshot.plainRoots
    rw [henvRoots, henv]
    cases t.envRoots with
    | some roots => simp
    | none =>
      by_cases hnil : t.roots = []
      · have hnil' : s.roots = [] := hroots.eq_nil_iff.mpr hnil
        simp only [Option.getD_none, hnil, hnil', List.reverse_nil, if_true]
        cases t.env.home with
        | none => rfl
        | some home => exact congrArg Except.ok (eraseDups_roots (Stutter.refl _) hurl _ _)
      · have hnil' : s.roots ≠ [] := mt hroots.eq_nil_iff.mp hnil
        simp only [Option.getD_none, List.reverse_eq_nil_iff, hnil, hnil', if_false]
        exact congrArg Except.ok (eraseDups_roots hroots.reverse hurl _ _)
  have hurlmatch : ∀ (lossy : Bytes → Str) (git : Str → Except ConfigError Output) (url : Str),
      urlmatch lossy git s url = urlmatch lossy git t url := by
    intro lossy git url
    have hsections : s.hasUrlSections = t.hasUrlSections := by
      rw [Bool.eq_iff_iff]
      simp [ConfigSnapshot.hasUrlSections, hurl.eq_nil_iff]
    rw [urlmatch, urlmatch, hsections]
  refine ⟨hresolve, fun lossy git url => ?_, huser, hcomplete, fun wildmatch path => ?_, hcache⟩
  · unfold rootForUrl primaryRoot
    rw [henvRoots, hresolve, hroots.getLast?_eq, hurlmatch]
  · exact (hexclude.map toBytes).any_eq _

/-! ## Both backends -/

/-- The values of a name stutter where the gitconfig does. -/
lemma stutter_valuesIn {file file' : List Section}
    (h : Stutter (file.map Section.anonymous) (file'.map Section.anonymous))
    {p : Section → Prop} [DecidablePred p] (hp : ∀ sec : Section, p sec.anonymous ↔ p sec)
    (name : Bytes) : Stutter (valuesIn p file name) (valuesIn p file' name) := by
  have hvalues : ∀ file, valuesIn p file name =
      (file.map Section.anonymous).flatMap fun sec => if p sec then sec.keyValues name else [] := by
    intro file
    rw [valuesIn, List.flatMap_map]
    exact List.flatMap_congr fun sec _ => if_congr (hp sec).symm rfl rfl
  rw [hvalues, hvalues]
  exact h.flatMap _

/-- `File::string` answers alike where the gitconfig stutters. -/
lemma string_eq_of_stutter {file file' : List Section}
    (h : Stutter (file.map Section.anonymous) (file'.map Section.anonymous))
    (sectionName name : Bytes) : string file sectionName name = string file' sectionName name := by
  have hstring : ∀ file, string file sectionName name =
      ((file.map Section.anonymous).filterMap fun sec =>
        if sec.IsPlain sectionName then sec.value name else none).getLast? := by
    intro file
    rw [List.filterMap_map, List.getLast?_filterMap]
    rfl
  rw [hstring, hstring, (h.filterMap _).getLast?_eq]

/-- Exclusions that stutter stutter in the end. -/
lemma stutter_effectiveListExclude {patterns patterns' : List Str}
    (h : Stutter patterns patterns') (env : Env) :
    Stutter (effectiveListExclude lossy env patterns)
      (effectiveListExclude lossy env patterns') := by
  unfold effectiveListExclude
  split
  · exact h.filterMap _
  · exact Stutter.refl _

/-- The snapshot of some sections is like that of git's listing, which may say a block twice. -/
lemma alike_fromListing {file : Option (List Section)} {listed : List Section} {env : Env}
    (h : Stutter ((file.getD []).map Section.anonymous) (listed.map Section.anonymous))
    (hvalid : ∀ sec ∈ listed, sec.Valid) (huser : UserAgrees lossy listed)
    (hurl : UrlRootsAgree interpolate lossy env listed) (reason : Reason) :
    Alike host (fromFile interpolate lossy file env)
      (fromListing interpolate lossy (listing listed) env reason) := by
  have hfile : fromFile interpolate lossy file env =
      fromFile interpolate lossy (some (file.getD [])) env := by
    cases file <;> rfl
  have hvalues := stutter_valuesIn h (p := Section.IsScap) (fun _ => Iff.rfl)
  have hscoped := stutter_valuesIn h (p := Section.IsScoped) (fun _ => Iff.rfl)
    (ascii "root".toList)
  have hcollected := collectFile_eq interpolate lossy env (file.getD [])
  have hlisting := foldl_entries_listing interpolate lossy env hvalid
  have hroots := rootsIn_isScoped_eq hurl
  have hname := (user_eq_iff lossy listed).mpr huser
  rw [hfile]
  apply alike_of_stutter
  · rfl
  · simp only [fromFile, fromListing, hcollected, hlisting]
    exact (hvalues _).filterMap _
  · simp only [fromFile, fromListing, hcollected, hlisting, ← hroots]
    exact hscoped.filterMap _
  · simp only [fromFile, fromListing, hcollected, hlisting, ← hname]
    rw [string_eq_of_stutter h]
  · simp only [fromFile, fromListing, hcollected, hlisting]
    rw [(hvalues _).getLast?_eq]
  · simp only [fromFile, fromListing, hcollected, hlisting]
    exact stutter_effectiveListExclude ((hvalues _).filterMap _) env
  · simp only [fromFile, fromListing, hcollected, hlisting]
    rw [(hvalues _).getLast?_eq]

end

/-- A gitconfig with one root. -/
def oneRoot : List Section :=
  [{ origin := ascii "file:/h/.gitconfig".toList
     name := ascii "scap".toList
     subsection := none
     keys := [(ascii "root".toList, some (ascii "/src".toList))] }]

/-- The paths of one file. -/
def spellings : List PathBuf :=
  [ascii "/h/.config/git/config".toList, ascii "/h/.gitconfig".toList, ascii "/c".toList]

/-- Both files of the user are the file `/c`. -/
def linkedHost : ConfigHost where
  isFile path := path = ascii "/b/git".toList
  isExecutable _ := true
  canon path := if spellings.contains path then some (ascii "/c".toList) else none
  discover _ _ := none
  plainFile _ := none
  parseAlone _ := none
  parseFile _ path := if spellings.contains path then some (.ok oneRoot) else none
  git _ _ := .ok ⟨some 0, listing (oneRoot ++ oneRoot), []⟩

/-- The environment of the sample: a home directory, and nothing about `scap`. -/
def linkedEnv : LoadEnv where
  toEnv := { bareEnv with home := some (ascii "/h".toList) }
  xdgConfigHome := none
  gitConfigGlobal := none
  gitConfigSystem := none
  gitConfigNosystem := none
  gitConfigCount := none
  gitConfigParameters := none
  gitDir := none
  gitCeilingDirectories := none
  scapConfigBackend := none
  cwd := none
  path := some (ascii "/b".toList)
  systemProbeCandidates := [ascii "/etc/gitconfig".toList]

/-- Both spellings of the file read the same. -/
lemma sameUnderSpellings_linked : SameUnderSpellings linkedHost linkedEnv := by
  intro p q h
  have hiff : spellings.contains p = spellings.contains q := by
    simp only [resolved, linkedHost] at h
    have hfile : spellings.contains (ascii "/c".toList) = true := by decide
    cases hp : spellings.contains p <;> cases hq : spellings.contains q <;>
      simp only [hp, hq, if_true, Bool.false_eq_true, if_false, Option.getD_some,
        Option.getD_none] at h
    · rfl
    · rw [h, hfile] at hp
      cases hp
    · rw [← h, hfile] at hq
      cases hq
    · rfl
  simp only [linkedHost, hiff]

end Config

end Scap
