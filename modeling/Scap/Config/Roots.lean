import Scap.Config.Values
import Scap.Url.Input

/-!
# Roots

Where repositories live (`src/config.rs`): `resolve_roots` lists the roots that `list` walks,
`root_for_url` chooses the root a clone of a URL belongs to, by five rules, the fourth of which asks
git.  `found_of_verbatim` says when what is cloned is found again: unless git's answer loses
something when it is trimmed.
-/

namespace Scap

namespace Config

/-- What goes wrong in resolving roots. -/
inductive ConfigError where
  | gitSpawn
  | gitConfigFailed (key : Str) (status : ℤ) (stderr : Str)
  | noHomeDir
  | invalidUtf8
  | gitRequired (reason : Str)
deriving DecidableEq

/-- What a finished process leaves: its exit code, if it was not killed, and what it wrote. -/
structure Output where
  code : Option ℤ
  stdout : Bytes
  stderr : Bytes
deriving DecidableEq

/-! ## Paths -/

/-- `std::path::Component`, without the prefixes of Windows. -/
inductive Component where
  | rootDir
  | curDir
  | parentDir
  | normal (name : Bytes)
deriving DecidableEq

/-- A piece between slashes; nothing for the empty one and for `.`. -/
def componentOf (piece : Bytes) : Option Component :=
  if piece = [] ∨ piece = ascii ".".toList then none
  else if piece = ascii "..".toList then some .parentDir
  else some (.normal piece)

/-- `Path::components`: a path that begins with `.` keeps it. -/
def components (path : PathBuf) : List Component :=
  let pieces := path.splitOn slash
  let start := if path.head? = some slash then [Component.rootDir]
    else if pieces.head? = some (ascii ".".toList) then [Component.curDir]
    else []
  start ++ pieces.filterMap componentOf

/-- `PathBuf::push`: an absolute path replaces the buffer. -/
def pushBytes (path part : PathBuf) : PathBuf :=
  if part.head? = some slash then part
  else if path = [] ∨ path.getLast? = some slash then path ++ part
  else path ++ slash :: part

/-- A pushed path ends in the part pushed. -/
lemma suffix_pushBytes (path part : PathBuf) : part <:+ pushBytes path part := by
  unfold pushBytes
  split_ifs
  · exact List.suffix_refl part
  · exact List.suffix_append ..
  · exact ⟨path ++ [slash], by simp⟩

/-- `PathBuf::pop`, on a path without doubled or final slashes. -/
def popBytes (path : PathBuf) : PathBuf :=
  if path = [slash] then path
  else
    match splitLast slash path with
    | none => []
    | some ([], _) => [slash]
    | some (parent, _) => parent

/-- One component of `clean_path`. -/
def cleanStep (out : PathBuf) : Component → PathBuf
  | .parentDir => popBytes out
  | .curDir => out
  | .rootDir => pushBytes out [slash]
  | .normal name => pushBytes out name

/-- `clean_path`. -/
def cleanPath (path : PathBuf) : PathBuf :=
  let out := (components path).foldl cleanStep []
  if out = [] then ascii ".".toList else out

/-! ## The roots of a snapshot -/

namespace ConfigSnapshot

/-- `env_roots`. -/
def envRoots (s : ConfigSnapshot) : Option (List PathBuf) :=
  (s.env.scapRoot.filter (· ≠ [])).map splitPaths

/-- `has_url_sections`. -/
def hasUrlSections (s : ConfigSnapshot) : Bool := !s.urlScopedRoots.isEmpty

/-- The roots of `SCAP_ROOT`, or the plain ones with the last one first, or one in the home
directory. -/
def plainRoots (s : ConfigSnapshot) : Except ConfigError (List PathBuf) :=
  let roots := s.envRoots.getD s.roots.reverse
  if roots = [] then
    match s.env.home with
    | none => .error .noHomeDir
    | some home => .ok [pushBytes home (ascii "scap".toList)]
  else .ok roots

/-- The roots before cleaning. -/
def listedRoots (s : ConfigSnapshot) (all : Bool) : Except ConfigError (List PathBuf) := do
  let roots ← s.plainRoots
  .ok (if all ∧ s.envRoots = none then roots ++ s.urlScopedRoots else roots)

end ConfigSnapshot

section

variable (canon : PathBuf → Option PathBuf)

/-- A path as the file system has it, or the path itself. -/
def resolved (path : PathBuf) : PathBuf := (canon path).getD path

/-- `resolve_roots`: what canonicalises to an earlier root is left out. -/
def resolveRoots (s : ConfigSnapshot) (all : Bool) : Except ConfigError (List PathBuf) := do
  let roots ← s.listedRoots all
  .ok (roots.map fun root => resolved canon (cleanPath root)).eraseDups

/-! ## The root of a URL -/

/-- `is_codecommit_input`. -/
def isCodecommitInput (input : Str) : Bool := (parseCodecommit input).isSome

section

variable (lossy : Bytes → Str)

/-- `urlmatch_spawn`, once `git config --path --get-urlmatch scap.root <url>` has run. -/
def urlmatchSpawn (output : Output) : Except ConfigError (Option PathBuf) :=
  match output.code with
  | some 0 =>
    match fromUtf8 output.stdout with
    | none => .error .invalidUtf8
    | some stdout =>
      let trimmed := trim stdout
      .ok (if trimmed = [] then none else some (toBytes trimmed))
  | some 1 => .ok none
  | some status => .error (.gitConfigFailed "scap.root".toList status (lossy output.stderr))
  | none => .error (.gitConfigFailed "scap.root".toList (-1) (lossy output.stderr))

variable (git : Str → Except ConfigError Output)

/-- The first root of `resolve_roots`. -/
def primaryRoot (s : ConfigSnapshot) : Except ConfigError PathBuf := do
  let roots ← resolveRoots canon s false
  match roots.head? with
  | some root => .ok root
  | none => .error .noHomeDir

/-- The last plain root, or without one the primary root. -/
def fallbackRoot (s : ConfigSnapshot) : Except ConfigError PathBuf :=
  match s.roots.getLast? with
  | some last => .ok (cleanPath last)
  | none => primaryRoot canon s

/-- What git says of a URL, if it is asked: only when some section may match. -/
def urlmatch (s : ConfigSnapshot) (url : Str) : Except ConfigError (Option PathBuf) :=
  if s.hasUrlSections then git url >>= urlmatchSpawn lossy else .ok none

/-- `root_for_url`. -/
def rootForUrl (s : ConfigSnapshot) (url : Str) : Except ConfigError PathBuf :=
  match s.envRoots with
  | some (root :: _) => .ok (cleanPath root)
  | _ =>
    if "codecommit://".toList <+: url ∨ isCodecommitInput url then primaryRoot canon s
    else do
      match ← urlmatch lossy git s url with
      | some value => .ok (cleanPath value)
      | none =>
        match s.roots.getLast? with
        | some last => .ok (cleanPath last)
        | none => primaryRoot canon s

/-! ## What is cloned is found -/

/-- When git answers, it prints one of the snapshot's roots for some URL, or its last plain one, and
a newline. -/
def PrintsRoot (s : ConfigSnapshot) (output : Output) : Prop :=
  output.code = some 0 →
    ∃ value, (value ∈ s.urlScopedRoots ∨ s.roots.getLast? = some value) ∧
      output.stdout = value ++ [0x0a]

/-- What `list` walks contains the root. -/
def Found (s : ConfigSnapshot) (root : PathBuf) : Prop :=
  ∃ roots, resolveRoots canon s true = .ok roots ∧ resolved canon root ∈ roots

/-- Git is asked for the root of the URL. -/
def Delegated (s : ConfigSnapshot) (url : Str) : Prop :=
  s.envRoots = none ∧ ¬("codecommit://".toList <+: url ∨ isCodecommitInput url) ∧ s.hasUrlSections

/-- There is a plain root or a home directory, so that the roots can be listed. -/
def Listable (s : ConfigSnapshot) : Prop := s.roots ≠ [] ∨ s.env.home ≠ none

/-- What git prints for the URL, if it is asked and prints a path. -/
def Answers (s : ConfigSnapshot) (url : Str) (text : Str) : Prop :=
  Delegated s url ∧ trim text ≠ [] ∧ ∃ output value, git url = .ok output ∧ output.code = some 0 ∧
    output.stdout = value ++ [0x0a] ∧ fromUtf8 value = some text

end

end

section

variable {canon : PathBuf → Option PathBuf} {lossy : Bytes → Str}
  {git : Str → Except ConfigError Output} {s : ConfigSnapshot} {url : Str}

/-- The roots resolved are those listed, cleaned, resolved and without duplicates. -/
lemma resolveRoots_eq {all : Bool} {roots : List PathBuf} (h : s.listedRoots all = .ok roots) :
    resolveRoots canon s all =
      .ok (roots.map fun root => resolved canon (cleanPath root)).eraseDups := by
  unfold resolveRoots
  rw [h]
  rfl

/-- The primary root is the first one listed, cleaned and resolved. -/
lemma primaryRoot_eq_ok {root : PathBuf} (h : primaryRoot canon s = .ok root) :
    ∃ listed rest, s.listedRoots false = .ok (listed :: rest) ∧
      root = resolved canon (cleanPath listed) := by
  unfold primaryRoot resolveRoots at h
  obtain ⟨found, hfound, hhead⟩ := bind_eq_ok.mp h
  obtain ⟨roots, hroots, hok⟩ := bind_eq_ok.mp hfound
  cases hok
  cases roots with
  | nil => cases hhead
  | cons listed rest =>
    rw [List.map_cons, List.eraseDups_cons] at hhead
    cases hhead
    exact ⟨listed, rest, hroots, rfl⟩

/-- What is listed for cloning is listed for walking. -/
lemma listedRoots_true {roots : List PathBuf} (h : s.listedRoots false = .ok roots) :
    s.listedRoots true = .ok (if s.envRoots = none then roots ++ s.urlScopedRoots else roots) := by
  unfold ConfigSnapshot.listedRoots at h ⊢
  obtain ⟨found, hfound, hok⟩ := bind_eq_ok.mp h
  refine bind_eq_ok.mpr ⟨found, hfound, ?_⟩
  cases hok
  simp

/-- A root is found exactly if it is that of a listed one. -/
lemma found_iff_mem {roots : List PathBuf} (h : s.listedRoots true = .ok roots) (root : PathBuf) :
    Found canon s root ↔ ∃ listed ∈ roots,
      resolved canon root = resolved canon (cleanPath listed) := by
  unfold Found
  rw [resolveRoots_eq h]
  constructor
  · rintro ⟨found, hfound, hmem⟩
    cases hfound
    obtain ⟨listed, hlisted, heq⟩ := List.mem_map.mp (List.mem_eraseDups.mp hmem)
    exact ⟨listed, hlisted, heq.symm⟩
  · rintro ⟨listed, hlisted, heq⟩
    exact ⟨_, rfl, List.mem_eraseDups.mpr (List.mem_map.mpr ⟨listed, hlisted, heq.symm⟩)⟩

/-- A listed root, cleaned, is found. -/
lemma found_of_listed {roots : List PathBuf} (h : s.listedRoots true = .ok roots) {listed : PathBuf}
    (hmem : listed ∈ roots) : Found canon s (cleanPath listed) :=
  (found_iff_mem h _).mpr ⟨listed, hmem, rfl⟩

/-- The primary root is found. -/
lemma found_primaryRoot (hcanon : ∀ path out, canon path = some out → canon out = some out)
    {root : PathBuf} (h : primaryRoot canon s = .ok root) : Found canon s root := by
  obtain ⟨listed, rest, hlisted, rfl⟩ := primaryRoot_eq_ok h
  have hmem : listed ∈ (if s.envRoots = none then (listed :: rest) ++ s.urlScopedRoots
      else listed :: rest) := by
    split_ifs <;> simp
  have hresolved : resolved canon (resolved canon (cleanPath listed)) =
      resolved canon (cleanPath listed) := by
    unfold resolved
    cases hpath : canon (cleanPath listed) with
    | none => rw [Option.getD_none, hpath, Option.getD_none]
    | some out => rw [Option.getD_some, hcanon _ _ hpath, Option.getD_some]
  exact (found_iff_mem (listedRoots_true hlisted) _).mpr ⟨listed, hmem, hresolved⟩

/-! ## Git's answer -/

/-- A final newline is trimmed. -/
lemma trim_append_newline (s : Str) : trim (s ++ ['\n']) = trim s := by
  have hnewline : isWhitespace '\n' = true := by decide
  unfold trim
  rw [List.dropWhile_append]
  split_ifs with hempty
  · rw [List.isEmpty_iff.mp hempty, List.dropWhile_cons_of_pos hnewline]
    rfl
  · exact List.rdropWhile_concat_pos _ _ _ hnewline

/-- What the answer with exit code 0 comes to. -/
lemma urlmatchSpawn_eq {output : Output} {value : Bytes} (hcode : output.code = some 0)
    (hstdout : output.stdout = value ++ [0x0a]) :
    urlmatchSpawn lossy output =
      match fromUtf8 value with
      | none => .error .invalidUtf8
      | some text => .ok (if trim text = [] then none else some (toBytes (trim text))) := by
  have hnewline : toBytes ['\n'] = [0x0a] := by decide
  have hascii : ∀ c ∈ ['\n'], c.toNat < 0x80 := forall_mem_of_all (by decide)
  unfold urlmatchSpawn
  rw [hcode, hstdout, ← hnewline]
  simp only [fromUtf8_append_right hascii]
  cases fromUtf8 value with
  | none => rfl
  | some text => simp only [Option.map_some, trim_append_newline]

/-! ## What is cloned is found -/

/-- `SCAP_ROOT` is unset if it gives no root. -/
lemma envRoots_ne_nil : s.envRoots ≠ some [] := by
  unfold ConfigSnapshot.envRoots splitPaths
  cases s.env.scapRoot.filter (· ≠ []) with
  | none => exact nofun
  | some value => exact fun h => List.splitOn_ne_nil 0x3a value (Option.some.inj h)

/-- The roots of `SCAP_ROOT` are the ones listed. -/
lemma listedRoots_of_envRoots {roots : List PathBuf} (h : s.envRoots = some roots) (all : Bool) :
    s.listedRoots all = .ok roots := by
  have hne : roots ≠ [] := by
    rintro rfl
    exact envRoots_ne_nil h
  unfold ConfigSnapshot.listedRoots ConfigSnapshot.plainRoots
  rw [h]
  simp only [Option.getD_some, if_neg hne, reduceCtorEq, and_false, if_false]
  rfl

/-- Without `SCAP_ROOT` the roots are listed if there is a plain one or a home directory. -/
lemma listedRoots_true_of_envRoots (henv : s.envRoots = none) :
    s.listedRoots true =
      if s.roots ≠ [] then .ok (s.roots.reverse ++ s.urlScopedRoots)
      else match s.env.home with
        | none => .error .noHomeDir
        | some home => .ok (pushBytes home (ascii "scap".toList) :: s.urlScopedRoots) := by
  unfold ConfigSnapshot.listedRoots ConfigSnapshot.plainRoots
  rw [henv]
  by_cases hroots : s.roots = []
  · simp only [hroots, Option.getD_none, List.reverse_nil, if_true, ne_eq, not_true_eq_false,
      if_false]
    cases s.env.home <;> rfl
  · simp only [Option.getD_none, List.reverse_eq_nil_iff, hroots, ne_eq, not_false_eq_true, if_true,
      if_false]
    rfl

/-- What git may print is listed. -/
lemma mem_listedRoots {roots : List PathBuf} (henv : s.envRoots = none)
    (h : s.listedRoots true = .ok roots) {value : Bytes}
    (hvalue : value ∈ s.urlScopedRoots ∨ s.roots.getLast? = some value) : value ∈ roots := by
  rw [listedRoots_true_of_envRoots henv] at h
  by_cases hroots : s.roots = []
  · rw [if_neg (not_not.mpr hroots)] at h
    have hscoped : value ∈ s.urlScopedRoots :=
      hvalue.resolve_right (by rw [hroots]; exact nofun)
    cases hhome : s.env.home with
    | none =>
      rw [hhome] at h
      cases h
    | some home =>
      rw [hhome] at h
      cases h
      exact List.mem_cons_of_mem _ hscoped
  · rw [if_pos hroots] at h
    cases h
    rw [List.mem_append, List.mem_reverse]
    exact hvalue.symm.imp_left List.mem_of_getLast?

/-- Without `SCAP_ROOT` the roots can be listed exactly if there is a plain one or a home
directory. -/
lemma exists_listedRoots_iff (henv : s.envRoots = none) :
    (∃ roots, s.listedRoots true = .ok roots) ↔ Listable s := by
  rw [listedRoots_true_of_envRoots henv]
  unfold Listable
  by_cases hroots : s.roots = []
  · simp only [hroots, ne_eq, not_true_eq_false, if_false, false_or]
    cases s.env.home <;> simp
  · simp only [ne_eq, hroots, not_false_eq_true, if_true, true_or, iff_true]
    exact ⟨_, rfl⟩

/-- A delegated answer without blanks around it is found, if the roots can be listed. -/
lemma found_answer (henv : s.envRoots = none) (hlistable : Listable s) {value : Bytes} {text : Str}
    (hvalue : value ∈ s.urlScopedRoots ∨ s.roots.getLast? = some value)
    (htext : fromUtf8 value = some text) (htrim : trim text = text) :
    Found canon s (cleanPath (toBytes (trim text))) := by
  have hbytes : toBytes text = value := fromUtf8_eq_some_iff.mp htext
  obtain ⟨roots, hroots⟩ := (exists_listedRoots_iff henv).mpr hlistable
  rw [htrim, hbytes]
  exact found_of_listed hroots (mem_listedRoots henv hroots hvalue)

/-- The last plain root and the primary one are found. -/
lemma found_fallbackRoot (hcanon : ∀ path out, canon path = some out → canon out = some out)
    (henv : s.envRoots = none) {root : PathBuf} (h : fallbackRoot canon s = .ok root) :
    Found canon s root := by
  unfold fallbackRoot at h
  cases hlast : s.roots.getLast? with
  | none =>
    rw [hlast] at h
    exact found_primaryRoot hcanon h
  | some last =>
    rw [hlast] at h
    cases h
    have hroots : s.roots ≠ [] := by
      intro hnil
      rw [hnil] at hlast
      cases hlast
    have hlisted := listedRoots_true_of_envRoots henv
    rw [if_pos hroots] at hlisted
    exact found_of_listed hlisted (mem_listedRoots henv hlisted (.inr hlast))

/-- The first root of `SCAP_ROOT` is the root of every URL. -/
lemma rootForUrl_of_envRoots {root : PathBuf} {rest : List PathBuf}
    (h : s.envRoots = some (root :: rest)) :
    rootForUrl canon lossy git s url = .ok (cleanPath root) := by
  unfold rootForUrl
  rw [h]

/-- The root of a CodeCommit URL is the primary one. -/
lemma rootForUrl_of_codecommit (henv : s.envRoots = none)
    (h : "codecommit://".toList <+: url ∨ isCodecommitInput url) :
    rootForUrl canon lossy git s url = primaryRoot canon s := by
  unfold rootForUrl
  rw [henv]
  exact if_pos h

/-- Without `SCAP_ROOT`, on a target that is not CodeCommit. -/
lemma rootForUrl_of_urlmatch (henv : s.envRoots = none)
    (h : ¬("codecommit://".toList <+: url ∨ isCodecommitInput url)) :
    rootForUrl canon lossy git s url =
      urlmatch lossy git s url >>= fun
        | some value => .ok (cleanPath value)
        | none => fallbackRoot canon s := by
  unfold rootForUrl
  rw [henv]
  exact if_neg h

/-- A delegated URL whose answer is a root of the snapshot. -/
lemma rootForUrl_of_delegated (h : Delegated s url) {output : Output} {value : Bytes} {text : Str}
    (hrun : git url = .ok output) (hcode : output.code = some 0)
    (hstdout : output.stdout = value ++ [0x0a]) (htext : fromUtf8 value = some text) :
    rootForUrl canon lossy git s url =
      if trim text = [] then fallbackRoot canon s else .ok (cleanPath (toBytes (trim text))) := by
  obtain ⟨henv, hcodecommit, hsections⟩ := h
  have hanswer : urlmatch lossy git s url =
      .ok (if trim text = [] then none else some (toBytes (trim text))) := by
    unfold urlmatch
    rw [if_pos hsections, hrun]
    refine (urlmatchSpawn_eq hcode hstdout).trans ?_
    rw [htext]
  rw [rootForUrl_of_urlmatch henv hcodecommit, hanswer]
  by_cases htrim : trim text = []
  · rw [if_pos htrim, if_pos htrim]
    rfl
  · rw [if_neg htrim, if_neg htrim]
    rfl

/-- A value that `root_for_url` takes from git is a root of the snapshot that git has printed,
without the blanks around it. -/
lemma exists_answers_of_urlmatch (henv : s.envRoots = none)
    (hcodecommit : ¬("codecommit://".toList <+: url ∨ isCodecommitInput url))
    (hgit : ∀ output, git url = .ok output → PrintsRoot s output) {value : Bytes}
    (h : urlmatch lossy git s url = .ok (some value)) :
    ∃ text printed, Answers git s url text ∧
      (printed ∈ s.urlScopedRoots ∨ s.roots.getLast? = some printed) ∧
      fromUtf8 printed = some text ∧ value = toBytes (trim text) := by
  unfold urlmatch at h
  by_cases hsections : s.hasUrlSections
  swap
  · rw [if_neg hsections] at h
    cases h
  rw [if_pos hsections] at h
  obtain ⟨output, hrun, hspawn⟩ := bind_eq_ok.mp h
  -- Only an answer with exit code 0 gives a value.
  have hcode : output.code = some 0 := by
    unfold urlmatchSpawn at hspawn
    split at hspawn <;> first | assumption | cases hspawn
  obtain ⟨printed, hprinted, hstdout⟩ := hgit output hrun hcode
  rw [urlmatchSpawn_eq hcode hstdout] at hspawn
  cases htext : fromUtf8 printed with
  | none =>
    rw [htext] at hspawn
    cases hspawn
  | some text =>
    rw [htext] at hspawn
    by_cases htrim : trim text = []
    · simp [htrim] at hspawn
    · simp only [htrim, if_false, Except.ok.injEq, Option.some.injEq] at hspawn
      exact ⟨text, printed, ⟨⟨henv, hcodecommit, hsections⟩, htrim, output, printed, hrun, hcode,
        hstdout, htext⟩, hprinted, htext, hspawn.symm⟩

/-- The root of every URL is found if `SCAP_ROOT` is set. -/
lemma found_of_envRoots {roots : List PathBuf} (henv : s.envRoots = some roots) {root : PathBuf}
    (hroot : rootForUrl canon lossy git s url = .ok root) : Found canon s root := by
  obtain ⟨first, rest, rfl⟩ := List.exists_cons_of_ne_nil fun hnil =>
    envRoots_ne_nil (s := s) (hnil ▸ henv)
  rw [rootForUrl_of_envRoots henv] at hroot
  cases hroot
  exact found_of_listed (listedRoots_of_envRoots henv true) (List.mem_cons_self ..)

/-- Where `root_for_url` puts a clone, `list` looks, if the roots can be listed and git's answer,
where it is asked for one, has no blanks around it.  With an answer the roots must be listable. -/
theorem found_of_verbatim (hcanon : ∀ path out, canon path = some out → canon out = some out)
    (hgit : ∀ output, git url = .ok output → PrintsRoot s output) :
    ((∀ text, Answers git s url text → Listable s ∧ trim text = text) →
        ∀ root, rootForUrl canon lossy git s url = .ok root → Found canon s root) ∧
      ((∀ root, rootForUrl canon lossy git s url = .ok root → Found canon s root) →
        ∀ text, Answers git s url text → Listable s) := by
  refine ⟨fun hanswer root hroot => ?_, fun hfound text hanswers => ?_⟩
  · cases henv : s.envRoots with
    | some roots => exact found_of_envRoots henv hroot
    | none =>
      by_cases hcodecommit : "codecommit://".toList <+: url ∨ isCodecommitInput url
      · rw [rootForUrl_of_codecommit henv hcodecommit] at hroot
        exact found_primaryRoot hcanon hroot
      · rw [rootForUrl_of_urlmatch henv hcodecommit] at hroot
        obtain ⟨found, hfound, hok⟩ := bind_eq_ok.mp hroot
        cases found with
        | none => exact found_fallbackRoot hcanon henv hok
        | some value =>
          obtain ⟨text, printed, hanswers, hprinted, htext, rfl⟩ :=
            exists_answers_of_urlmatch henv hcodecommit hgit hfound
          obtain ⟨hlistable, hverbatim⟩ := hanswer text hanswers
          cases hok
          exact found_answer henv hlistable hprinted htext hverbatim
  · obtain ⟨hdelegated, htrim, output, value, hrun, hcode, hstdout, htext⟩ := hanswers
    have hroot : rootForUrl canon lossy git s url = _ :=
      rootForUrl_of_delegated hdelegated hrun hcode hstdout htext
    rw [if_neg htrim] at hroot
    obtain ⟨found, hresolve, -⟩ := hfound _ hroot
    obtain ⟨roots, hroots, -⟩ := bind_eq_ok.mp hresolve
    exact (exists_listedRoots_iff hdelegated.1).mp ⟨roots, hroots⟩

end

/-- A snapshot with a plain root and one for a host. -/
def hostSnapshot (hostRoot : PathBuf) : ConfigSnapshot where
  env := ⟨some (ascii "/home/u".toList), none, none, none⟩
  roots := [ascii "/src".toList]
  urlScopedRoots := [hostRoot]
  user := none
  completeUser := false
  listExclude := []
  listCache := false
  backend := .inProcess
  reason := .urlSections

/-- Git prints this root. -/
def printed (root : PathBuf) : Output := ⟨some 0, root ++ [0x0a], []⟩

/-- What is printed is a root of the snapshot and a newline. -/
lemma printsRoot_printed (root : PathBuf) : PrintsRoot (hostSnapshot root) (printed root) :=
  fun _ => ⟨root, .inl (List.mem_singleton_self root), rfl⟩

/-- A root without blanks around it is found. -/
theorem found_of_verbatim_host :
    rootForUrl (fun _ => none) (fun _ => []) (fun _ => .ok (printed (ascii "/work".toList)))
        (hostSnapshot (ascii "/work".toList)) "https://example.com/a/b".toList =
      .ok (ascii "/work".toList) ∧
    Found (fun _ => none) (hostSnapshot (ascii "/work".toList)) (ascii "/work".toList) := by
  have hcanon : ∀ path out : PathBuf, (none : Option PathBuf) = some out →
      (none : Option PathBuf) = some out := fun _ _ h => h
  have hwork : fromUtf8 (ascii "/work".toList) = some "/work".toList :=
    fromUtf8_eq_some_iff.mpr rfl
  have hroot : rootForUrl (fun _ => none) (fun _ => [])
      (fun _ => .ok (printed (ascii "/work".toList))) (hostSnapshot (ascii "/work".toList))
      "https://example.com/a/b".toList = .ok (ascii "/work".toList) :=
    rootForUrl_of_delegated ⟨rfl, by decide, rfl⟩ rfl rfl rfl hwork
  refine ⟨hroot, (found_of_verbatim hcanon ?_).1 ?_ _ hroot⟩
  · intro output houtput
    cases houtput
    exact printsRoot_printed _
  · rintro text ⟨-, -, output, value, houtput, -, hstdout, htext⟩
    cases houtput
    obtain rfl : ascii "/work".toList = value := List.append_cancel_right hstdout
    obtain rfl : "/work".toList = text := Option.some.inj (hwork.symm.trans htext)
    exact ⟨.inl (by decide), rfl⟩

/-- A root that ends in a space: git prints it, and what is cloned goes elsewhere. -/
theorem not_found_of_space :
    PrintsRoot (hostSnapshot (ascii "/work ".toList)) (printed (ascii "/work ".toList)) ∧
      rootForUrl (fun _ => none) (fun _ => [])
          (fun _ => .ok (printed (ascii "/work ".toList)))
          (hostSnapshot (ascii "/work ".toList)) "https://example.com/a/b".toList =
        .ok (ascii "/work".toList) ∧
      ¬Found (fun _ => none) (hostSnapshot (ascii "/work ".toList)) (ascii "/work".toList) := by
  refine ⟨printsRoot_printed _, ?_, ?_⟩
  · have htext : fromUtf8 (ascii "/work ".toList) = some "/work ".toList :=
      fromUtf8_eq_some_iff.mpr rfl
    exact rootForUrl_of_delegated ⟨rfl, by decide, rfl⟩ rfl rfl rfl htext
  · rintro ⟨roots, hroots, hmem⟩
    cases hroots
    revert hmem
    decide

end Config

end Scap
