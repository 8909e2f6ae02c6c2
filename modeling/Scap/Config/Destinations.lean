import Scap.Config.Roots
import Scap.Url.NormalForm

/-!
# Destinations

Where the commands look for a target (`src/cmd/get.rs`, `src/cmd/rm.rs`, `src/cmd/create.rs`).  Each
works the target out, resolves a root for one of its URLs, and joins the relative path to the root.
`get` and `get --look` take the target itself for the URL when it has no host, where `rm` and
`create` take the canonical one; `commands_agree` says when that makes no difference.
-/

namespace Scap

namespace Config

/-- Why a command has no destination. -/
inductive CommandError where
  | bail (message : Str)
  | url (e : UrlError)
  | config (e : ConfigError)
deriving DecidableEq

section

variable (parse : Str → Except Str ParsedUrl) (debug : Str → Str) (aws : AwsEnv)
  (canon : PathBuf → Option PathBuf) (lossy : Bytes → Str) (git : Str → Except ConfigError Output)
  (s : ConfigSnapshot)

/-- The destination of a target, when the root is that of the given URL of its repository. -/
def destination (remote : Repo → Str) (bare : Bool) (target : Str) :
    Except CommandError PathBuf := do
  let repo ← (fromInput parse debug aws target s.user s.completeUser).mapError .url
  let root ← (rootForUrl canon lossy git s (remote repo)).mapError .config
  .ok (pushBytes root (toBytes (relPath repo bare)))

/-- The URL that `get` clones. -/
def getRemote (ssh : Bool) (repo : Repo) : Str :=
  if repo.host = [] then repo.originalInput
  else if ssh then repo.sshUrl
  else repo.httpsUrl

/-- The destination of `process_target`. -/
def processTarget (ssh bare : Bool) (target : Str) : Except CommandError PathBuf :=
  destination parse debug aws canon lossy git s (getRemote ssh) bare target

/-- The destination of `exec_look`. -/
def execLook (ssh bare : Bool) (target : Str) : Except CommandError PathBuf :=
  destination parse debug aws canon lossy git s (getRemote ssh) bare target

/-- The destination of `rm::run`. -/
def rmRun (bare : Bool) (target : Str) : Except CommandError PathBuf :=
  if target = [] then .error (.bail "repository name is required".toList)
  else destination parse debug aws canon lossy git s Repo.httpsUrl bare target

/-- The destination of `create::run`. -/
def createRun (bare : Bool) (target : Str) : Except CommandError PathBuf :=
  if target = [] then .error (.bail "repository name is required".toList)
  else destination parse debug aws canon lossy git s Repo.httpsUrl bare target

/-- The four commands have one destination for the target, or none of them has one. -/
def CommandsAgree (bare : Bool) (target : Str) : Prop :=
  let get := processTarget parse debug aws canon lossy git s false bare target
  get.toOption = (execLook parse debug aws canon lossy git s false bare target).toOption ∧
    get.toOption = (rmRun parse debug aws canon lossy git s bare target).toOption ∧
    get.toOption = (createRun parse debug aws canon lossy git s bare target).toOption

/-- The root that git, if it is asked, and the plain roots give for a URL. -/
def askedRoot (url : Str) : Except ConfigError PathBuf := do
  match ← urlmatch lossy git s url with
  | some value => .ok (cleanPath value)
  | none => fallbackRoot canon s

/-- A target without a host is treated like its canonical URL: `SCAP_ROOT` decides; or no section
has a root, and neither does `scap` or the target is no CodeCommit one; or the target is none, and
git answers both URLs alike. -/
def Settled (target : Str) : Prop :=
  ∀ repo, fromInput parse debug aws target s.user s.completeUser = .ok repo → repo.host = [] →
    s.envRoots ≠ none ∨
      s.hasUrlSections = false ∧ (¬"codecommit://".toList <+: target ∨ s.roots = []) ∨
      ¬"codecommit://".toList <+: target ∧ git target = git repo.httpsUrl

/-- Git gives a value for the target as typed, and none that is the same path for the canonical URL
of its repository. -/
def Torn (repo : Repo) (target : Str) : Prop :=
  s.envRoots = none ∧ s.hasUrlSections ∧ ¬"codecommit://".toList <+: target ∧
    ∃ value, git target >>= urlmatchSpawn lossy = .ok (some value) ∧
      ∀ answer, git repo.httpsUrl >>= urlmatchSpawn lossy = .ok answer →
        ∃ other, answer = some other ∧ cleanPath other ≠ cleanPath value

end

/-! ## Joining a root -/

/-- A path that does not end in a slash, or is the root directory. -/
def NoFinalSlash (path : PathBuf) : Prop :=
  path = [slash] ∨ path ≠ [] ∧ path.getLast? ≠ some slash

/-- What `clean_path` pushes and pops. -/
inductive Tidy : PathBuf → Prop
  | empty : Tidy []
  | root : Tidy [slash]
  | push {path name : PathBuf} : Tidy path → name ≠ [] → slash ∉ name → Tidy (pushBytes path name)

namespace Tidy

/-- A tidy path that is not empty does not end in a slash. -/
lemma noFinalSlash {path : PathBuf} (h : Tidy path) (hne : path ≠ []) : NoFinalSlash path := by
  cases h with
  | empty => exact absurd rfl hne
  | root => exact .inl rfl
  | @push path name _ hname hslash =>
    refine .inr ⟨hne, ?_⟩
    have hhead : name.head? ≠ some slash := fun h => hslash (List.mem_of_mem_head? h)
    obtain ⟨init, c, rfl⟩ := (List.eq_nil_or_concat' name).resolve_left hname
    have hc : c ≠ slash := fun heq => hslash (by simp [heq])
    unfold pushBytes
    rw [if_neg hhead]
    split
    · rw [← List.append_assoc, List.getLast?_concat]
      simpa using hc
    · rw [← List.cons_append, ← List.append_assoc, List.getLast?_concat]
      simpa using hc

/-- Popping undoes pushing. -/
lemma popBytes_push {path name : PathBuf} (h : Tidy path) (hname : name ≠ [])
    (hslash : slash ∉ name) :
    popBytes (pushBytes path name) = path := by
  have hhead : name.head? ≠ some slash := fun h => hslash (List.mem_of_mem_head? h)
  unfold pushBytes
  rw [if_neg hhead]
  rcases eq_or_ne path [] with rfl | hne
  · rw [if_pos (.inl rfl), List.nil_append]
    unfold popBytes
    rw [if_neg (by rintro rfl; simp at hslash), splitLast_of_not_mem hslash]
  · rcases h.noFinalSlash hne with rfl | ⟨-, hlast⟩
    · rw [if_pos (.inr rfl)]
      unfold popBytes
      rw [if_neg (by simpa using hname), show [slash] ++ name = [] ++ slash :: name from rfl,
        splitLast_append hslash]
    · rw [if_neg (by simp [hne, hlast])]
      unfold popBytes
      have hroot : path ++ slash :: name ≠ [slash] := by
        obtain ⟨c, rest, rfl⟩ := List.exists_cons_of_ne_nil hne
        simp
      rw [if_neg hroot, splitLast_append hslash]
      obtain ⟨c, rest, rfl⟩ := List.exists_cons_of_ne_nil hne
      rfl

/-- A tidy path stays tidy when its last component is taken off. -/
lemma popBytes {path : PathBuf} (h : Tidy path) : Tidy (popBytes path) := by
  cases h with
  | empty => exact .empty
  | root => exact .root
  | push h hname hslash => rwa [h.popBytes_push hname hslash]

end Tidy

/-- A name among the components of a path is a name. -/
lemma normal_mem_components {path name : PathBuf} (h : Component.normal name ∈ components path) :
    name ≠ [] ∧ slash ∉ name := by
  have hpiece : ∃ piece ∈ path.splitOn slash, componentOf piece = some (.normal name) := by
    unfold components at h
    rcases List.mem_append.mp h with h | h
    · split at h
      · simp at h
      · split at h <;> simp at h
    · exact List.mem_filterMap.mp h
  obtain ⟨piece, hmem, hcomponent⟩ := hpiece
  unfold componentOf at hcomponent
  split at hcomponent
  · cases hcomponent
  · rename_i hne
    split at hcomponent
    · cases hcomponent
    · cases hcomponent
      exact ⟨fun hnil => hne (.inl hnil), not_mem_of_mem_splitOn hmem⟩

/-- A cleaned path has no final slash. -/
lemma noFinalSlash_cleanPath (path : PathBuf) : NoFinalSlash (cleanPath path) := by
  have hfold : ∀ parts : List Component,
      (∀ name, Component.normal name ∈ parts → name ≠ [] ∧ slash ∉ name) →
      ∀ out, Tidy out → Tidy (parts.foldl cleanStep out) := by
    intro parts
    induction parts with
    | nil => exact fun _ _ hout => hout
    | cons part parts ih =>
      intro hparts out hout
      refine ih (fun name hname => hparts name (List.mem_cons_of_mem _ hname)) _ ?_
      cases part with
      | rootDir => exact .root
      | curDir => exact hout
      | parentDir => exact hout.popBytes
      | normal name =>
        obtain ⟨hne, hslash⟩ := hparts name (List.mem_cons_self ..)
        exact hout.push hne hslash
  have htidy := hfold (components path) (fun _ => normal_mem_components) [] .empty
  unfold cleanPath
  by_cases hne : (components path).foldl cleanStep [] = []
  · exact .inr ⟨by simp [hne, ascii], by rw [if_pos hne]; decide⟩
  · simp only [if_neg hne]
    exact htidy.noFinalSlash hne

/-- Different roots give different destinations. -/
lemma pushBytes_injective {root root' rel : PathBuf} (hroot : NoFinalSlash root)
    (hroot' : NoFinalSlash root') (hrel : rel.head? ≠ some slash)
    (h : pushBytes root rel = pushBytes root' rel) : root = root' := by
  have hpush : ∀ {root : PathBuf}, NoFinalSlash root →
      root = [slash] ∧ pushBytes root rel = slash :: rel ∨
        root ≠ [] ∧ pushBytes root rel = root ++ slash :: rel := by
    rintro root (rfl | ⟨hne, hlast⟩)
    · refine .inl ⟨rfl, ?_⟩
      unfold pushBytes
      rw [if_neg hrel, if_pos (.inr rfl)]
      rfl
    · refine .inr ⟨hne, ?_⟩
      unfold pushBytes
      rw [if_neg hrel, if_neg (by simp [hne, hlast])]
  rcases hpush hroot with ⟨rfl, heq⟩ | ⟨hne, heq⟩ <;>
    rcases hpush hroot' with ⟨rfl, heq'⟩ | ⟨hne', heq'⟩
  · rfl
  · rw [heq, heq'] at h
    exact absurd (List.append_cancel_right
      (show [] ++ slash :: rel = root' ++ slash :: rel from h)).symm
      hne'
  · rw [heq, heq'] at h
    exact absurd (List.append_cancel_right (show root ++ slash :: rel = [] ++ slash :: rel from h))
      hne
  · rw [heq, heq'] at h
    exact List.append_cancel_right h

/-- A text starts with a slash if its bytes do. -/
lemma head?_of_head?_toBytes {text : Str} (h : (toBytes text).head? = some slash) :
    text.head? = some '/' := by
  cases text with
  | nil => cases h
  | cons c text => exact congrArg some ((head?_toBytes_cons_iff (by decide) (by decide)).mp h)

/-- A relative path is relative. -/
lemma head?_relPath {repo : Repo} {bare : Bool} (hhost : repo.host.head? ≠ some '/')
    (hname : repo.name.head? ≠ some '/') : (relPath repo bare).head? ≠ some '/' := by
  have hpush : ∀ {path part : Str}, path.head? ≠ some '/' → part.head? ≠ some '/' →
      (push path part).head? ≠ some '/' := by
    intro path part hpath hpart
    unfold push
    rw [if_neg hpart]
    cases path with
    | nil => simpa using hpart
    | cons c path => split <;> simpa using hpath
  have hfold : ∀ parts : List Str, (∀ part ∈ parts, '/' ∉ part) → ∀ path : Str,
      path.head? ≠ some '/' → (parts.foldl push path).head? ≠ some '/' := by
    intro parts
    induction parts with
    | nil => exact fun _ _ hpath => hpath
    | cons part parts ih =>
      intro hparts path hpath
      obtain ⟨hpart, hparts⟩ := List.forall_mem_cons.mp hparts
      exact ih hparts _ (hpush hpath fun hhead => hpart (List.mem_of_mem_head? hhead))
  have howner : ∀ part ∈ (repo.owner.splitOn '/').filter (· ≠ []), '/' ∉ part := fun part hpart =>
    not_mem_of_mem_splitOn (List.mem_filter.mp hpart).1
  have hpath := hfold _ howner _ (hpush (show ([] : Str).head? ≠ some '/' by simp) hhost)
  unfold relPath
  split
  · refine hpush hpath ?_
    cases hcase : repo.name with
    | nil => decide
    | cons c name =>
      rw [hcase] at hname
      exact hname
  · exact hpush hpath hname

/-! ## Agreement -/

section

variable {parse : Str → Except Str ParsedUrl} {debug : Str → Str} {aws : AwsEnv}
  {canon : PathBuf → Option PathBuf} {lossy : Bytes → Str} {git : Str → Except ConfigError Output}
  {s : ConfigSnapshot}

/-- What the commands join the relative path to has no final slash. -/
lemma noFinalSlash_rootForUrl (hcanon : ∀ path out, canon path = some out → NoFinalSlash out)
    {url : Str} {root : PathBuf} (h : rootForUrl canon lossy git s url = .ok root) :
    NoFinalSlash root := by
  have hprimary : ∀ {root}, primaryRoot canon s = .ok root → NoFinalSlash root := by
    intro root hroot
    obtain ⟨listed, rest, -, rfl⟩ := primaryRoot_eq_ok hroot
    unfold resolved
    cases hpath : canon (cleanPath listed) with
    | none => exact noFinalSlash_cleanPath listed
    | some out => exact hcanon _ _ hpath
  have hfallback : ∀ {root}, fallbackRoot canon s = .ok root → NoFinalSlash root := by
    intro root hroot
    unfold fallbackRoot at hroot
    split at hroot
    · cases hroot
      exact noFinalSlash_cleanPath _
    · exact hprimary hroot
  cases henv : s.envRoots with
  | some roots =>
    cases roots with
    | nil => exact absurd henv envRoots_ne_nil
    | cons first rest =>
      rw [rootForUrl_of_envRoots henv] at h
      cases h
      exact noFinalSlash_cleanPath first
  | none =>
    by_cases hcodecommit : "codecommit://".toList <+: url ∨ isCodecommitInput url
    · rw [rootForUrl_of_codecommit henv hcodecommit] at h
      exact hprimary h
    · rw [rootForUrl_of_urlmatch henv hcodecommit] at h
      obtain ⟨value, -, h⟩ := bind_eq_ok.mp h
      cases value with
      | none => exact hfallback h
      | some value =>
        cases h
        exact noFinalSlash_cleanPath value

/-- The region of a CodeCommit target is not empty. -/
lemma host_ne_nil_of_codecommit {original : Str} {codecommit : CodecommitRef} {repo : Repo}
    (hparse : parseCodecommit original = some codecommit)
    (h : finalizeCodecommit aws original codecommit = .ok repo) : repo.host ≠ [] := by
  unfold finalizeCodecommit at h
  obtain ⟨host, hhost, h⟩ := bind_eq_ok.mp h
  cases h
  unfold codecommitHost at hhost
  split at hhost
  · rename_i region hregion
    cases hhost
    exact ((parseCodecommit_spec hparse).2.2 host hregion).nonempty
  · unfold resolveCodecommitRegion at hhost
    have hfilter : ∀ {given : Option Str} {region}, given.filter (· ≠ []) = some region →
        region ≠ [] := fun h => by simpa using (Option.filter_eq_some_iff.mp h).2
    split at hhost
    · rename_i region hregion
      cases hhost
      exact hfilter hregion
    · split at hhost
      · rename_i region hregion
        cases hhost
        exact hfilter hregion
      · split at hhost
        · rename_i region hregion
          cases hhost
          unfold runAwsConfigureGetRegion at hregion
          obtain ⟨stdout, -, hregion⟩ := Option.bind_eq_some_iff.mp hregion
          simp only at hregion
          split at hregion
          · cases hregion
          · rename_i hne
            cases hregion
            exact hne
        · cases hhost

/-- What is known of a target without a host: it is a URL, and its canonical one starts anew. -/
lemma hostless_spec {target : Str} {scapUser : Option Str} {completeUser : Bool} {repo : Repo}
    (h : fromInput parse debug aws target scapUser completeUser = .ok repo)
    (hhost : repo.host = []) :
    parseCodecommit target = none ∧ repo.originalInput = target ∧ '/' ∉ repo.name ∧
      ∃ path, repo.httpsUrl = urlText "https".toList none [] ('/' :: path) := by
  obtain ⟨-, -, ⟨codecommit, hcodecommit, h⟩ | ⟨-, -, h⟩ | ⟨hcodecommit, -, parsed, -, h⟩⟩ :=
    fromInput_cases h
  · exact absurd hhost (host_ne_nil_of_codecommit hcodecommit h)
  · rw [(fromBare_spec h).1] at hhost
    exact absurd hhost (by decide)
  · obtain ⟨horiginal, hurl⟩ := urls_of_fromParsed h
    rw [hhost] at hurl
    exact ⟨hcodecommit, horiginal, (trimRepoPath_of_fromParsed h).2, _, hurl⟩

/-- Where a target leads that `from_input` accepts. -/
lemma toOption_destination {target : Str} {repo : Repo}
    (h : fromInput parse debug aws target s.user s.completeUser = .ok repo) (remote : Repo → Str)
    (bare : Bool) :
    (destination parse debug aws canon lossy git s remote bare target).toOption =
      (rootForUrl canon lossy git s (remote repo)).toOption.map
        fun root => pushBytes root (toBytes (relPath repo bare)) := by
  unfold destination
  rw [h]
  simp only [Except.mapError, bind, Except.bind]
  cases rootForUrl canon lossy git s (remote repo) <;> rfl

/-- Two URLs lead to one destination exactly if they lead to one root. -/
lemma map_pushBytes_eq_iff (hcanon : ∀ path out, canon path = some out → NoFinalSlash out)
    {rel : PathBuf} (hrel : rel.head? ≠ some slash) (url url' : Str) :
    (rootForUrl canon lossy git s url).toOption.map (fun root => pushBytes root rel) =
        (rootForUrl canon lossy git s url').toOption.map (fun root => pushBytes root rel) ↔
      (rootForUrl canon lossy git s url).toOption =
        (rootForUrl canon lossy git s url').toOption := by
  cases hroot : rootForUrl canon lossy git s url with
  | error e => cases rootForUrl canon lossy git s url' <;> simp [Except.toOption]
  | ok root =>
    cases hroot' : rootForUrl canon lossy git s url' with
    | error e => simp [Except.toOption]
    | ok root' =>
      simp only [Except.toOption, Option.map_some, Option.some.injEq]
      constructor
      · exact pushBytes_injective (noFinalSlash_rootForUrl hcanon hroot)
          (noFinalSlash_rootForUrl hcanon hroot') hrel
      · rintro rfl
        rfl

/-- What decides whether the commands agree is `get` and `rm`. -/
lemma commandsAgree_iff_destination {bare : Bool} {target : Str} :
    CommandsAgree parse debug aws canon lossy git s bare target ↔
      (destination parse debug aws canon lossy git s (getRemote false) bare target).toOption =
        (destination parse debug aws canon lossy git s Repo.httpsUrl bare target).toOption := by
  have hempty : ∀ remote, target = [] →
      (destination parse debug aws canon lossy git s remote bare target).toOption = none := by
    rintro remote rfl
    rfl
  unfold CommandsAgree processTarget execLook rmRun createRun
  by_cases hne : target = []
  · simp only [if_pos hne, hempty _ hne]
    simp [Except.toOption]
  · simp only [if_neg hne]
    grind

/-- A target that `from_input` refuses leads nowhere. -/
lemma toOption_destination_of_error {target : Str} {e : UrlError}
    (h : fromInput parse debug aws target s.user s.completeUser = .error e) (remote : Repo → Str)
    (bare : Bool) :
    (destination parse debug aws canon lossy git s remote bare target).toOption = none := by
  unfold destination
  rw [h]
  rfl

/-- The root of the canonical URL of a target without a host, where no environment variable names
the roots. -/
lemma rootForUrl_hostless (henv : s.envRoots = none) (path : Str) :
    rootForUrl canon lossy git s (urlText "https".toList none [] ('/' :: path)) =
      askedRoot canon lossy git s (urlText "https".toList none [] ('/' :: path)) := by
  refine rootForUrl_of_urlmatch henv ?_
  rintro (⟨rest, hrest⟩ | hinput)
  · have hhead : some 'c' = some 'h' := congrArg List.head? hrest
    cases hhead
  · unfold isCodecommitInput at hinput
    rw [(hasScheme_urlText (.inl rfl) none [] ('/' :: path)).2] at hinput
    cases hinput

/-- The root of a target that is no CodeCommit shorthand, likewise. -/
lemma rootForUrl_of_parseCodecommit (henv : s.envRoots = none) {target : Str}
    (hcodecommit : parseCodecommit target = none) :
    rootForUrl canon lossy git s target =
      if "codecommit://".toList <+: target then primaryRoot canon s
      else askedRoot canon lossy git s target := by
  have hinput : ¬isCodecommitInput target := by
    unfold isCodecommitInput
    rw [hcodecommit]
    exact Bool.false_ne_true
  by_cases hstart : "codecommit://".toList <+: target
  · rw [if_pos hstart]
    exact rootForUrl_of_codecommit henv (.inl hstart)
  · rw [if_neg hstart]
    exact rootForUrl_of_urlmatch henv (not_or.mpr ⟨hstart, hinput⟩)

/-- On a target without a host the commands agree if its two URLs have one root. -/
lemma commandsAgree_of_hostless {bare : Bool} {target : Str} {repo : Repo}
    (hrepo : fromInput parse debug aws target s.user s.completeUser = .ok repo)
    (hhost : repo.host = [])
    (hroots : (rootForUrl canon lossy git s target).toOption =
      (rootForUrl canon lossy git s repo.httpsUrl).toOption) :
    CommandsAgree parse debug aws canon lossy git s bare target := by
  have hremote : getRemote false repo = target := by
    unfold getRemote
    rw [if_pos hhost, (hostless_spec hrepo hhost).2.1]
  rw [commandsAgree_iff_destination, toOption_destination hrepo, toOption_destination hrepo,
    hremote, hroots]

/-- Where they agree, both URLs have one root. -/
lemma roots_eq_of_commandsAgree (hcanon : ∀ path out, canon path = some out → NoFinalSlash out)
    {bare : Bool} {target : Str} {repo : Repo}
    (hrepo : fromInput parse debug aws target s.user s.completeUser = .ok repo)
    (hhost : repo.host = [])
    (h : CommandsAgree parse debug aws canon lossy git s bare target) :
    (rootForUrl canon lossy git s target).toOption =
      (rootForUrl canon lossy git s repo.httpsUrl).toOption := by
  obtain ⟨-, horiginal, hslash, -⟩ := hostless_spec hrepo hhost
  have hremote : getRemote false repo = target := by
    unfold getRemote
    rw [if_pos hhost, horiginal]
  have hrel : (toBytes (relPath repo bare)).head? ≠ some slash := by
    have hname : repo.name.head? ≠ some '/' := fun h => hslash (List.mem_of_mem_head? h)
    have hhostless : repo.host.head? ≠ some '/' := by simp [hhost]
    exact fun hhead => head?_relPath hhostless hname (head?_of_head?_toBytes hhead)
  rw [commandsAgree_iff_destination, toOption_destination hrepo, toOption_destination hrepo,
    hremote] at h
  exact (map_pushBytes_eq_iff hcanon hrel _ _).mp h

/-- The root of a URL that git is asked about. -/
lemma askedRoot_of_urlSections (h : s.hasUrlSections) (url : Str) :
    askedRoot canon lossy git s url =
      git url >>= urlmatchSpawn lossy >>= fun
        | some value => .ok (cleanPath value)
        | none => fallbackRoot canon s := by
  unfold askedRoot urlmatch
  rw [if_pos h]

/-- The root of a URL that git is not asked about. -/
lemma askedRoot_of_not_urlSections (h : s.hasUrlSections = false) (url : Str) :
    askedRoot canon lossy git s url = fallbackRoot canon s := by
  unfold askedRoot urlmatch
  rw [h]
  rfl

/-- On a target with a host the commands agree: all of them take its canonical URL. -/
lemma commandsAgree_of_host {bare : Bool} {target : Str} {repo : Repo}
    (hrepo : fromInput parse debug aws target s.user s.completeUser = .ok repo)
    (hhost : repo.host ≠ []) : CommandsAgree parse debug aws canon lossy git s bare target := by
  have hremote : getRemote false repo = repo.httpsUrl := by
    unfold getRemote
    rw [if_neg hhost]
    rfl
  rw [commandsAgree_iff_destination, toOption_destination hrepo, toOption_destination hrepo,
    hremote]

/-- A target without a host that is treated like its canonical URL has its root. -/
lemma roots_eq_of_settled {target : Str} {repo : Repo}
    (hrepo : fromInput parse debug aws target s.user s.completeUser = .ok repo)
    (hhost : repo.host = []) (h : Settled parse debug aws git s target) :
    rootForUrl canon lossy git s target = rootForUrl canon lossy git s repo.httpsUrl := by
  obtain ⟨hcodecommit, -, -, path, hurl⟩ := hostless_spec hrepo hhost
  cases henv : s.envRoots with
  | some roots =>
    obtain ⟨first, rest, rfl⟩ := List.exists_cons_of_ne_nil fun hnil =>
      envRoots_ne_nil (s := s) (hnil ▸ henv)
    rw [rootForUrl_of_envRoots henv, rootForUrl_of_envRoots henv]
  | none =>
    have hasked : rootForUrl canon lossy git s repo.httpsUrl =
        askedRoot canon lossy git s repo.httpsUrl := by
      rw [hurl]
      exact rootForUrl_hostless henv path
    rw [hasked, rootForUrl_of_parseCodecommit henv hcodecommit]
    rcases h repo hrepo hhost with hset | ⟨hsections, hplain⟩ | ⟨hstart, hanswer⟩
    · exact absurd henv hset
    · -- Git is not asked, and the plain roots decide.
      rw [askedRoot_of_not_urlSections hsections, askedRoot_of_not_urlSections hsections]
      split_ifs with hstart
      · have hnone : s.roots = [] := hplain.resolve_left (not_not.mpr hstart)
        unfold fallbackRoot
        rw [hnone]
        rfl
      · rfl
    · rw [if_neg hstart]
      unfold askedRoot urlmatch
      rw [hanswer]

/-- A target without a host for which git gives another value than for its canonical URL has another
root. -/
lemma roots_ne_of_torn {target : Str} {repo : Repo}
    (hrepo : fromInput parse debug aws target s.user s.completeUser = .ok repo)
    (hhost : repo.host = []) (h : Torn lossy git s repo target) :
    (rootForUrl canon lossy git s target).toOption ≠
      (rootForUrl canon lossy git s repo.httpsUrl).toOption := by
  obtain ⟨henv, hsections, hstart, value, hvalue, hother⟩ := h
  obtain ⟨hcodecommit, -, -, path, hurl⟩ := hostless_spec hrepo hhost
  rw [hurl, rootForUrl_hostless henv, rootForUrl_of_parseCodecommit henv hcodecommit,
    if_neg hstart, ← hurl, askedRoot_of_urlSections hsections, askedRoot_of_urlSections hsections,
    hvalue]
  intro hroots
  cases hanswer : git repo.httpsUrl >>= urlmatchSpawn lossy with
  | error e =>
    rw [hanswer] at hroots
    cases hroots
  | ok answer =>
    obtain ⟨other, rfl, hne⟩ := hother answer hanswer
    rw [hanswer] at hroots
    exact hne (Option.some.inj hroots).symm

/-- **The commands agree** on every target that is rejected, has a host, or is treated like its
canonical URL.  They do not on one without a host where git gives a value for it, and none that is
the same path for its canonical URL. -/
theorem commands_agree (parse : Str → Except Str ParsedUrl) (debug : Str → Str) (aws : AwsEnv)
    (canon : PathBuf → Option PathBuf) (lossy : Bytes → Str) (git : Str → Except ConfigError Output)
    (s : ConfigSnapshot) (bare : Bool) (target : Str) :
    (Settled parse debug aws git s target →
        CommandsAgree parse debug aws canon lossy git s bare target) ∧
      ((∀ path out, canon path = some out → NoFinalSlash out) → ∀ repo,
        fromInput parse debug aws target s.user s.completeUser = .ok repo → repo.host = [] →
        Torn lossy git s repo target →
        ¬CommandsAgree parse debug aws canon lossy git s bare target) := by
  refine ⟨fun hsettled => ?_, fun hcanon repo hrepo hhost htorn hagree => ?_⟩
  · cases hrepo : fromInput parse debug aws target s.user s.completeUser with
    | error e =>
      rw [commandsAgree_iff_destination, toOption_destination_of_error hrepo,
        toOption_destination_of_error hrepo]
    | ok repo =>
      by_cases hhost : repo.host = []
      · have hroots : rootForUrl canon lossy git s target = _ :=
          roots_eq_of_settled hrepo hhost hsettled
        exact commandsAgree_of_hostless hrepo hhost (congrArg _ hroots)
      · exact commandsAgree_of_host hrepo hhost
  · exact roots_ne_of_torn hrepo hhost htorn (roots_eq_of_commandsAgree hcanon hrepo hhost hagree)

end

/-- A target without a host. -/
def fileTarget : Str := "file:///srv/git/repo".toList

/-- A parser that knows this target only. -/
def parseFileTarget (value : Str) : Except Str ParsedUrl :=
  if value = fileTarget then .ok ⟨.file, none, none, "/srv/git/repo".toList⟩
  else .error "unknown".toList

/-- The repository of the target. -/
def fileRepo : Repo where
  host := []
  owner := "srv/git".toList
  name := "repo".toList
  vcsHint := none
  httpsUrl := "https:///srv/git/repo".toList
  sshUrl := "ssh://git@/srv/git/repo".toList
  originalInput := fileTarget

/-- The target has this repository. -/
lemma fromInput_fileTarget :
    fromInput parseFileTarget id ⟨none, none, none⟩ fileTarget none false = .ok fileRepo := by
  decide +kernel

/-- Git's answers when a section is for `file:///srv`: it does not take a URL without a host. -/
def answerForFile (url : Str) : Except ConfigError Output :=
  if "file:///srv".toList <+: url then .ok (printed (ascii "/work".toList))
  else .ok ⟨some 128, [], []⟩

/-- A snapshot with plain roots only. -/
def plainSnapshot : ConfigSnapshot := { hostSnapshot [] with urlScopedRoots := [] }

/-- With plain roots only, the commands agree on a file; with a section for `file:///srv` they do
not. -/
theorem commands_agree_file :
    CommandsAgree parseFileTarget id ⟨none, none, none⟩ (fun _ => none) (fun _ => []) answerForFile
        plainSnapshot false fileTarget ∧
      ¬CommandsAgree parseFileTarget id ⟨none, none, none⟩ (fun _ => none) (fun _ => [])
        answerForFile (hostSnapshot (ascii "/work".toList)) false fileTarget := by
  have hstart : ¬"codecommit://".toList <+: fileTarget := by decide
  constructor
  · exact (commands_agree parseFileTarget id ⟨none, none, none⟩ (fun _ => none) (fun _ => [])
      answerForFile plainSnapshot false fileTarget).1 fun _ _ _ => .inr (.inl ⟨rfl, .inl hstart⟩)
  · have htext : fromUtf8 (ascii "/work".toList) = some "/work".toList :=
      fromUtf8_eq_some_iff.mpr rfl
    have hvalue : answerForFile fileTarget >>= urlmatchSpawn (fun _ => []) =
        .ok (some (ascii "/work".toList)) := by
      have hprinted : urlmatchSpawn (fun _ => []) (printed (ascii "/work".toList)) = _ :=
        urlmatchSpawn_eq rfl rfl
      rw [htext] at hprinted
      exact hprinted
    exact (commands_agree parseFileTarget id ⟨none, none, none⟩ (fun _ => none) (fun _ => [])
      answerForFile (hostSnapshot (ascii "/work".toList)) false fileTarget).2 nofun fileRepo
      fromInput_fileTarget rfl ⟨rfl, rfl, hstart, _, hvalue, fun answer hanswer => nomatch hanswer⟩

/-- With a section for `file:///srv`, `get` has a destination for a file below it, and `rm` has
none. -/
theorem commands_disagree :
    ¬∀ (parse : Str → Except Str ParsedUrl) (debug : Str → Str) (aws : AwsEnv)
      (canon : PathBuf → Option PathBuf) (lossy : Bytes → Str)
      (git : Str → Except ConfigError Output) (s : ConfigSnapshot) (bare : Bool) (target : Str),
      (∀ path out, canon path = some out → NoFinalSlash out) →
      CommandsAgree parse debug aws canon lossy git s bare target := by
  intro hagree
  obtain ⟨-, hrm, -⟩ := hagree parseFileTarget id ⟨none, none, none⟩ (fun _ => none) (fun _ => [])
    answerForFile (hostSnapshot (ascii "/work".toList)) false fileTarget nofun
  have htarget : fileTarget ≠ [] := by decide
  have hrepo := fromInput_fileTarget
  have htext : fromUtf8 (ascii "/work".toList) = some "/work".toList :=
    fromUtf8_eq_some_iff.mpr rfl
  have hget : rootForUrl (fun _ => none) (fun _ => []) answerForFile
      (hostSnapshot (ascii "/work".toList)) fileTarget = .ok (ascii "/work".toList) :=
    rootForUrl_of_delegated ⟨rfl, by decide, rfl⟩ rfl rfl rfl htext
  have hnone : (rootForUrl (fun _ => none) (fun _ => []) answerForFile
      (hostSnapshot (ascii "/work".toList)) fileRepo.httpsUrl).toOption = none := by
    rfl
  unfold processTarget rmRun at hrm
  rw [if_neg htarget, toOption_destination hrepo, toOption_destination hrepo, hnone] at hrm
  have hremote : getRemote false fileRepo = fileTarget := rfl
  rw [hremote, hget] at hrm
  cases hrm

end Config

end Scap
