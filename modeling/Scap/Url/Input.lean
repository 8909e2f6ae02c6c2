import Mathlib.Data.List.Infix
import Scap.Path

/-!
# Targets

`from_input` (`src/url.rs`) turns a target into a `Repo` by one of five routes: CodeCommit, a URL
with a scheme, an scp-like spelling, a bare host, or a bare name.  The middle three go through
`gix_url::parse`, which is a parameter, as are the `Debug` form of a string and what the environment
says about the AWS region.
-/

namespace Scap

/-! ## Errors and parsed URLs -/

/-- Why a target is rejected. -/
inductive UrlError where
  | empty
  | pathTraversal (input : Str)
  | malformed (input reason : Str)
  | unknownUser (input : Str)
  | missingHost (input : Str)
  | missingPath (input : Str)
  | missingCodecommitRegion
deriving Repr, DecidableEq

/-- `gix_url::Scheme`. -/
inductive Scheme where
  | file | git | ssh | http | https
  | ext (name : Str)
deriving Repr, DecidableEq

/-- What `gix_url::parse` returns, as far as it is read. -/
structure ParsedUrl where
  scheme : Scheme
  user : Option Str
  host : Option Str
  path : Str
deriving Repr, DecidableEq

/-- What the environment says about the AWS region. -/
structure AwsEnv where
  /-- `AWS_REGION`. -/
  region : Option Str
  /-- `AWS_DEFAULT_REGION`. -/
  defaultRegion : Option Str
  /-- The standard output of `aws configure get region`, when it succeeds. -/
  configured : Option Str
deriving Repr, DecidableEq

/-! ## Recognisers -/

/-- The part before the last `@`, if there is one, and the part after it. -/
def splitUser (s : Str) : Option Str × Str :=
  match splitLast '@' s with
  | some (user, host) => (some user, host)
  | none => (none, s)

/-- `has_traversal`. -/
def hasTraversal (input : Str) : Bool :=
  (input.splitOnP fun c => c = '/' || c = '\\').any fun seg => seg = "..".toList

/-- `has_scheme`. -/
def hasScheme : Str → Bool
  | [] => false
  | c :: rest =>
    if c = ':' then decide ("//".toList <+: rest)
    else if isAsciiAlphanumeric c || c = '+' || c = '-' || c = '.' then hasScheme rest
    else false

/-- `parse_scp_like`: the user, the host and the path. -/
def parseScpLike (s : Str) : Option (Option Str × Str × Str) := do
  let (left, right) ← splitFirst ':' s
  if left = [] ∨ right = [] then none
  else if '/' ∈ left then none
  else
    let (user, host) := splitUser left
    if host = [] then none else some (user, host, right)

/-- `looks_like_authority`. -/
def looksLikeAuthority (s : Str) : Bool :=
  let host := s.takeWhile (· ≠ ':')
  host.contains '.' && host.head? != some '.' &&
    host.all fun c => c = '.' || isAsciiAlphanumeric c || c = '-'

/-- How a target is spelled. -/
inductive NormalizedKind where
  | hasScheme | scp | hostBare | bare
deriving Repr, DecidableEq

/-- A target, as it is handed on. -/
structure Normalized where
  value : Str
  kind : NormalizedKind
deriving Repr, DecidableEq

/-- `normalize_to_parseable`. -/
def normalizeToParseable (input : Str) : Normalized :=
  if hasScheme input then ⟨input, .hasScheme⟩
  else
    match parseScpLike input with
    | some (user, host, path) =>
      let userStart := match user with
        | some u => u ++ ['@']
        | none => []
      ⟨"ssh://".toList ++ userStart ++ host ++ '/' :: path.dropWhile (· = '/'), .scp⟩
    | none =>
      let first := input.takeWhile (· ≠ '/')
      if looksLikeAuthority first ∧ '/' ∈ input then ⟨"https://".toList ++ input, .hostBare⟩
      else ⟨input, .bare⟩

/-- `trim_repo_path`. -/
def trimRepoPath (p : Str) : Str :=
  let trimmed := trimSep '/' p
  let withoutGit := (stripSuffix ".git".toList trimmed).getD trimmed
  trimSep '/' withoutGit

/-- `detect_vcs`. -/
def detectVcs (scheme : Scheme) (host : Str) : Option Str :=
  match scheme with
  | .ext name =>
    let n := toAsciiLowercase name
    if "svn".toList <+: n then some "svn".toList
    else if n = "hg".toList ∨ "hg+".toList <+: n then some "hg".toList
    else some n
  | _ =>
    if host = "svn.code.sf.net".toList ∨ host = "subversion.assembla.com".toList then
      some "svn".toList
    else if "hg.".toList <:+: host then some "hg".toList
    else none

/-! ## Bare names -/

/-- `build_github_repo`. -/
def buildGithubRepo (original owner name : Str) : Repo :=
  let host := "github.com".toList
  { host := host
    owner := owner
    name := name
    vcsHint := none
    httpsUrl := "https://".toList ++ host ++ '/' :: owner ++ '/' :: name
    sshUrl := "ssh://git@".toList ++ host ++ '/' :: owner ++ '/' :: name
    originalInput := original }

/-- `from_bare`. -/
def fromBare (original value : Str) (scapUser : Option Str) (completeUser : Bool) :
    Except UrlError Repo :=
  let trimmed := trimSep '/' value
  let trimmed := (stripSuffix ".git".toList trimmed).getD trimmed
  match pieces '/' trimmed with
  | [] => .error .empty
  | [project] =>
    if completeUser then
      match scapUser with
      | some user => .ok (buildGithubRepo original user project)
      | none => .error (.unknownUser original)
    else .ok (buildGithubRepo original project project)
  | [owner, name] => .ok (buildGithubRepo original owner name)
  | segments => .error (.malformed original
      ("bare input has ".toList ++ (toString segments.length).toList ++ " path segments".toList))

/-! ## CodeCommit -/

/-- The capture groups of the CodeCommit pattern. -/
structure CodecommitRef where
  region : Option Str
  user : Option Str
  name : Str
deriving Repr, DecidableEq

/-- The region class of the CodeCommit pattern, `[a-z][a-z0-9-]+`. -/
def isRegion : Str → Bool
  | c :: d :: rest => c.isLower && (d :: rest).all fun c => c.isLower || c.isDigit || c = '-'
  | _ => false

/-- The region group of the pattern, and what follows it. -/
def codecommitRegion (rest : Str) : Option (Option Str × Str) :=
  match stripStart [':'] rest with
  | some withRegion =>
    match splitFirst ':' withRegion with
    | some (region, afterRegion) =>
      if isRegion region then some (some region, afterRegion) else none
    | none => none
  | none => some (none, rest)

/-- The user group and the name group. -/
def codecommitUserName (authority : Str) : Option (Option Str × Str) :=
  let (user, name) := splitUser authority
  if user.any fun user => user.isEmpty || user.contains ']' then none
  else if name = [] ∨
      ¬name.all (fun c => isAsciiAlphanumeric c || c = '_' || c = '.' || c = '-') then
    none
  else some (user, name)

/-- `parse_codecommit`. -/
def parseCodecommit (input : Str) : Option CodecommitRef := do
  let rest ← stripStart "codecommit:".toList input
  let (region, afterRegion) ← codecommitRegion rest
  let authority ← stripStart "//".toList afterRegion
  let (user, name) ← codecommitUserName authority
  some ⟨region, user, name⟩

/-- `run_aws_configure_get_region`. -/
def runAwsConfigureGetRegion (aws : AwsEnv) : Option Str :=
  aws.configured.bind fun stdout =>
    let region := trim stdout
    if region = [] then none else some region

/-- `resolve_codecommit_region`. -/
def resolveCodecommitRegion (aws : AwsEnv) : Except UrlError Str :=
  match aws.region.filter (· ≠ []) with
  | some region => .ok region
  | none =>
    match aws.defaultRegion.filter (· ≠ []) with
    | some region => .ok region
    | none =>
      match runAwsConfigureGetRegion aws with
      | some region => .ok region
      | none => .error .missingCodecommitRegion

/-- The region of a target: its own, or what the environment says. -/
def codecommitHost (aws : AwsEnv) (codecommit : CodecommitRef) : Except UrlError Str :=
  match codecommit.region with
  | some region => .ok region
  | none => resolveCodecommitRegion aws

/-- `finalize_codecommit`. -/
def finalizeCodecommit (aws : AwsEnv) (original : Str) (codecommit : CodecommitRef) :
    Except UrlError Repo := do
  let host ← codecommitHost aws codecommit
  let userStart := match codecommit.user with
    | some user => user ++ ['@']
    | none => []
  let url := "codecommit://".toList ++ userStart ++ host ++ '/' :: codecommit.name
  .ok {
    host := host
    owner := []
    name := codecommit.name
    vcsHint := some "git".toList
    httpsUrl := url
    sshUrl := url
    originalInput := original }

/-! ## All targets -/

section

variable (parse : Str → Except Str ParsedUrl) (debug : Str → Str) (aws : AwsEnv)

/-- The host of a parsed URL; only a file URL may be without one. -/
def parsedHost (original : Str) (parsed : ParsedUrl) : Except UrlError Str :=
  match parsed.host with
  | some h => .ok (toAsciiLowercase h)
  | none => if parsed.scheme = .file then .ok [] else .error (.missingHost original)

/-- What `from_input` does with a parsed URL. -/
def fromParsed (original : Str) (parsed : ParsedUrl) : Except UrlError Repo := do
  let host ← parsedHost original parsed
  let trimmed := trimRepoPath parsed.path
  if trimmed = [] then .error (.missingPath original)
  else
    let segments := trimmed.splitOn '/'
    if segments.length < 2 then
      .error (.malformed original ("expected owner/repo, got ".toList ++ debug trimmed))
    else
      let name := (segments.getLast?).getD []
      let owner := "/".toList.intercalate segments.dropLast
      let sshUser := parsed.user.getD "git".toList
      .ok {
        host := host
        owner := owner
        name := name
        vcsHint := detectVcs parsed.scheme host
        httpsUrl := "https://".toList ++ host ++ '/' :: owner ++ '/' :: name
        sshUrl := "ssh://".toList ++ sshUser ++ '@' :: host ++ '/' :: owner ++ '/' :: name
        originalInput := original }

/-- `from_input`. -/
def fromInput (input : Str) (scapUser : Option Str) (completeUser : Bool) : Except UrlError Repo :=
  if input = [] then .error .empty
  else if hasTraversal input then .error (.pathTraversal input)
  else
    match parseCodecommit input with
    | some codecommit => finalizeCodecommit aws input codecommit
    | none =>
      let normalized := normalizeToParseable input
      if normalized.kind = .bare then fromBare input normalized.value scapUser completeUser
      else
        match parse normalized.value with
        | .error reason => .error (.malformed input reason)
        | .ok parsed => fromParsed debug input parsed

end

end Scap
