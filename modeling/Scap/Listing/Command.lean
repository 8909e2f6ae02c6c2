import Scap.Index.CacheDir
import Scap.Listing.Unique

/-!
# The command `list`

`run` and `walk_one` (`src/cmd/list.rs`), from the arguments to the bytes on stdout: every root is
walked, answered from its index or checked, the repositories are named and filtered, and the lines
are sorted.

The walks may run on any number of threads, in any schedule and by either strategy, and the listings
come in whatever order the workers found the repositories.  None of this can be seen in what is
printed, nor can the mode: `list_prints` describes the bytes by the trees below the roots alone.
-/

namespace Scap.Listing

/-! ## The command -/

/-- The arguments of `list`. -/
structure Args extends ListArgs where
  vcs : Option Str
  fullPath : Bool
  unique : Bool
  cache : Bool
  noCache : Bool
  cacheCheck : Bool
deriving Repr, DecidableEq

/-- The lines of the repositories, in one of three forms. -/
def formatLines (args : Args) (repos : List Repo) : List Bytes :=
  if args.unique then formatUnique repos
  else if args.fullPath then repos.map Repo.abs
  else repos.map Repo.rel

/-- The lines in byte order, each ended by a newline. -/
def output (lines : List Bytes) : Bytes :=
  (Sorting.sorted lines).flatMap fun line => line ++ [0x0a]

/-- What went wrong in writing to stdout. -/
inductive WriteError where
  | brokenPipe
  | other (code : ℕ)
deriving Repr, DecidableEq

/-- How a run of `list` fails. -/
inductive ListError where
  | unsupportedVcs (vcs : Str)
  | config (err : Config.ConfigError)
  | walk (err : WalkError)
  | stdout (err : WriteError)
  /-- The repository index disagrees with a fresh walk. -/
  | indexDisagrees
deriving DecidableEq

/-- How a run ends. -/
inductive Status where
  | success
  | failure (err : ListError)
  /-- An `expect` failed. -/
  | panicked
deriving DecidableEq

/-- What a run of `list` leaves. -/
structure Printed where
  /-- The bytes handed to stdout. -/
  stdout : Bytes
  /-- The lines of `report_diff`. -/
  stderr : List DiffLine
  status : Status
deriving DecidableEq

/-- `write_stdout`, given how the write ended: a closed pipe is not an error. -/
def writeStdout : Except WriteError Unit → Except ListError Unit
  | .ok () => .ok ()
  | .error .brokenPipe => .ok ()
  | .error (.other code) => .error (.stdout (.other code))

/-- The end of `run`: the listing is printed before the verdict. -/
def conclude (written : Except WriteError Unit) (disagreed : Bool) : Status :=
  match writeStdout written with
  | .error err => .failure err
  | .ok () => if disagreed then .failure .indexDisagrees else .success

/-- Whether `--vcs` names something scap supports. -/
def supportedVcs (vcs : Str) : Bool :=
  vcs = "git".toList || vcs = "github".toList || vcs = "codecommit".toList

section

variable (wildmatch : Bytes → Bytes → Bool) (cache : Cache)

/-- `walk_one` returns `result`, prints `lines` and leaves `s'`. -/
def WalkOne (mode : Mode) (opts : WalkOptions) (root : Bytes) (s : CacheWorld)
    (result : Except WalkError (RootListing × Bool)) (lines : List DiffLine)
    (s' : CacheWorld) : Prop :=
  match mode with
  | .off => ∃ listing, WalkRoot wildmatch (hostOf (s.tree root)) root opts listing ∧
      result = listing.map (fun listing => (listing, false)) ∧ lines = [] ∧ s' = s
  | .on => ∃ now file listing stored, CacheWorld.MayRead cache s root file ∧
      ListRoot wildmatch (hostOf (s.tree root)) root opts now file listing stored ∧
      result = listing.map (fun listing => (listing, false)) ∧ lines = [] ∧
      s' = s.store cache root stored
  | .check => ∃ now file stored, CacheWorld.MayRead cache s root file ∧
      CheckRoot wildmatch (hostOf (s.tree root)) root opts now file result lines stored ∧
      s' = s.store cache root stored

/-- The loop of `run` over the roots: their listings, and whether any index disagreed. -/
def WalkRoots (mode : Mode) (opts : WalkOptions) : List Bytes → CacheWorld →
    Except WalkError (List RootListing × Bool) → List DiffLine → CacheWorld → Prop
  | [], s, result, lines, s' => result = .ok ([], false) ∧ lines = [] ∧ s' = s
  | root :: roots, s, result, lines, s' => ∃ one here between,
      WalkOne wildmatch cache mode opts root s one here between ∧
      match one with
      | .error err => result = .error err ∧ lines = here ∧ s' = between
      | .ok (listing, disagreed) => ∃ rest there,
        WalkRoots mode opts roots between rest there s' ∧ lines = here ++ there ∧
        result = rest.map fun (listings, others) => (listing :: listings, disagreed || others)

variable (canon : Bytes → Option Bytes) (toLowercase : Str → Str)

/-- `run` ends with `printed` and leaves `s'`, if writing to stdout ends with `written`. -/
def ListRun (snapshot : Config.ConfigSnapshot) (threads : ℕ) (detect : DetectStrategy)
    (written : Except WriteError Unit) (args : Args) (s : CacheWorld) (printed : Printed)
    (s' : CacheWorld) : Prop :=
  match args.vcs.filter fun vcs => !supportedVcs vcs, Config.resolveRoots canon snapshot true with
  | some vcs, _ => printed = ⟨[], [], .failure (.unsupportedVcs vcs)⟩ ∧ s' = s
  | none, .error err => printed = ⟨[], [], .failure (.config err)⟩ ∧ s' = s
  | none, .ok roots => ∃ walked lines,
    WalkRoots wildmatch cache
      (mode args.cache args.noCache args.cacheCheck snapshot.listCache)
      ⟨threads, snapshot.listExclude.map toBytes, detect, false⟩ roots s walked lines s' ∧
    match walked with
    | .error err => printed = ⟨[], lines, .failure (.walk err)⟩
    | .ok (listings, disagreed) =>
      match collect roots listings with
      | none => printed = ⟨[], lines, .panicked⟩
      | some repos => printed = ⟨output (formatLines args (filterRepos toLowercase repos
          args.toListArgs)), lines, conclude written disagreed⟩

end

/-! ## The order of the listing does not show -/

section Order

variable {repos repos' : List Repo}

/-- The counts do not depend on the order. -/
lemma countRepos_perm (h : repos.Perm repos') : countRepos repos = countRepos repos' := by
  have hcounts : ∀ {a b : Counts}, a.repos = b.repos → a.subpath = b.subpath → a = b := by
    rintro ⟨_, _⟩ ⟨_, _⟩ rfl rfl
    rfl
  have hholders : ∀ p, holders repos p = holders repos' p := fun p => by
    rw [holders, holders, List.toFinset_eq_of_perm _ _ (h.map Repo.rel)]
  refine hcounts ?_ ?_
  · rw [(countRepos_eq repos).1, (countRepos_eq repos').1]
    exact funext fun rel => (h.map Repo.rel).count_eq rel
  · rw [(countRepos_eq repos).2, (countRepos_eq repos').2]
    exact funext fun p => congrArg Finset.card (hholders p)

/-- Which repositories a query keeps does not depend on their order. -/
lemma filterRepos_perm (toLowercase : Str → Str) (h : repos.Perm repos') (args : ListArgs) :
    (filterRepos toLowercase repos args).Perm (filterRepos toLowercase repos' args) := by
  unfold filterRepos
  split
  · exact h
  · split
    · exact h.filter _
    · exact h.filter _

/-- Which lines are formatted does not depend on the order of the repositories. -/
lemma formatLines_perm (h : repos.Perm repos') (args : Args) :
    (formatLines args repos).Perm (formatLines args repos') := by
  unfold formatLines
  split_ifs
  · rw [formatUnique, formatUnique, countRepos_perm h]
    exact h.filterMap _
  · exact h.map _
  · exact h.map _

/-- What is printed is a function of the repositories, not of their order. -/
lemma output_filterRepos_perm (toLowercase : Str → Str) (h : repos.Perm repos') (args : Args) :
    output (formatLines args (filterRepos toLowercase repos args.toListArgs)) =
      output (formatLines args (filterRepos toLowercase repos' args.toListArgs)) := by
  rw [output, output, Sorting.sorted_eq_iff.mpr
    (formatLines_perm (filterRepos_perm toLowercase h args.toListArgs) args)]

end Order

/-! ## Listings and names -/

section Collect

variable {wildmatch : Bytes → Bytes → Bool} {exclude : List Bytes} {tree : Option Tree}
  {root : Bytes} {roots : List Bytes} {listings : List RootListing}

/-- A valid name of an entry is a name in a path. -/
lemma isName_of_validName {name : Bytes} (h : ValidName name) : IsName name :=
  ⟨h.nonempty, h.noSlash, h.ne_dot, h.ne_dotDot⟩

/-- The two ways of joining names agree. -/
lemma render_eq_relative {p : List Bytes} (h : ValidPath p) : render p = relative p := by
  rcases eq_or_ne p [] with rfl | hne
  · rfl
  · conv_rhs => rw [relative, ← splitOn_render h hne]
    exact (List.intercalate_splitOn slash).symm

/-- A listing holds relative paths, and `.` for the root. -/
lemma listed_of_isRepository {path : Bytes}
    (h : IsRepository wildmatch exclude tree root path) : Listed path := by
  obtain ⟨t, -, -, hlisted⟩ := h
  unfold Tree.Listed at hlisted
  split_ifs at hlisted
  · exact .inl hlisted
  · obtain ⟨p, hne, hkind, -, -, rfl⟩ := hlisted
    have hvalid := Tree.validPath_of_kind hkind
    exact .inr ⟨p, hne, fun name hname => isName_of_validName (hvalid name hname),
      render_eq_relative hvalid⟩

/-- The repositories that are collected are the paths that were found, each with its name. -/
lemma collect_eq (hroots : ∀ root ∈ roots, Clean root)
    (hlistings : ∀ listing ∈ listings, ∀ rel ∈ listing.arena, Listed rel) :
    collect roots listings = some ((walkedPaths roots listings).filterMap (named roots)) := by
  obtain ⟨paths, spans, hrun, h⟩ := nameRepositories_eq hroots hlistings
  rw [collect, hrun, Option.map_some, ← h.abs, List.filterMap_map]
  congr 1
  have hnamed : spans.map (Naming.repo paths) =
      spans.filterMap fun span => some (span.repo paths) := by simp
  exact hnamed.trans (List.filterMap_congr fun span hspan => (h.named span hspan).symm)

/-- Below one root, different listed paths are different paths. -/
lemma pushFullPath_injective {rel rel' : Bytes} (hroot : Clean root) (h : Listed rel)
    (h' : Listed rel') (heq : pushFullPath root rel = pushFullPath root rel') : rel = rel' := by
  have hcomponents := (clean_pushFullPath hroot h).2
  rw [heq, (clean_pushFullPath hroot h').2, List.append_cancel_left_eq] at hcomponents
  obtain ⟨names, -, hnames, hrel⟩ := h.exists_names
  obtain ⟨names', -, hnames', hrel'⟩ := h'.exists_names
  obtain rfl : names' = names := hnames'.symm.trans (hcomponents.trans hnames)
  exact hrel.trans hrel'.symm

/-- The listings of all roots. -/
def ListsAll (wildmatch : Bytes → Bytes → Bool) (exclude : List Bytes)
    (tree : Bytes → Option Tree) : List Bytes → List RootListing → Prop :=
  List.Forall₂ fun root listing => ListsExactly wildmatch exclude (tree root) root listing

variable {trees : Bytes → Option Tree}

/-- What listings hold are relative paths. -/
lemma ListsAll.listed (h : ListsAll wildmatch exclude trees roots listings) :
    ∀ listing ∈ listings, ∀ rel ∈ listing.arena, Listed rel := by
  unfold ListsAll at h
  induction h with
  | nil => exact fun listing hlisting => absurd hlisting List.not_mem_nil
  | cons hlists _ ih =>
    exact List.forall_mem_cons.mpr
      ⟨fun rel hrel => listed_of_isRepository ((hlists.mem_iff rel).mp hrel), ih⟩

/-- Other listings of the same roots find the same paths. -/
lemma ListsAll.perm {listings' : List RootListing}
    (h : ListsAll wildmatch exclude trees roots listings)
    (h' : ListsAll wildmatch exclude trees roots listings') :
    (walkedPaths roots listings).Perm (walkedPaths roots listings') := by
  unfold ListsAll at h
  induction h generalizing listings' with
  | nil =>
    cases h'
    exact .rfl
  | @cons root _ _ _ hlists _ ih =>
    cases h' with
    | cons hlists' hrest =>
      have hhead := (hlists.perm hlists').map (pushFullPath root)
      simpa [walkedPaths] using hhead.append (ih hrest)

open Classical in
/-- Every path is found once for each root that holds a repository there. -/
lemma ListsAll.count_walkedPaths (h : ListsAll wildmatch exclude trees roots listings)
    (hroots : ∀ root ∈ roots, Clean root) (path : Bytes) :
    (walkedPaths roots listings).count path = (roots.filter fun root =>
      ∃ rel, IsRepository wildmatch exclude (trees root) root rel ∧
        pushFullPath root rel = path).length := by
  unfold ListsAll at h
  induction h with
  | nil => rfl
  | @cons root listing roots listings hlists hrest ih =>
    obtain ⟨hroot, hroots⟩ := List.forall_mem_cons.mp hroots
    have hinjective : ∀ rel ∈ listing.arena, ∀ rel' ∈ listing.arena,
        pushFullPath root rel = pushFullPath root rel' → rel = rel' := fun rel hrel rel' hrel' =>
      pushFullPath_injective hroot (listed_of_isRepository ((hlists.mem_iff rel).mp hrel))
        (listed_of_isRepository ((hlists.mem_iff rel').mp hrel'))
    have hnodup := hlists.nodup.map_on hinjective
    have hmem : path ∈ listing.arena.map (pushFullPath root) ↔
        ∃ rel, IsRepository wildmatch exclude (trees root) root rel ∧
          pushFullPath root rel = path := by
      simp [hlists.mem_iff]
    have hcons : walkedPaths (root :: roots) (listing :: listings) =
        listing.arena.map (pushFullPath root) ++ walkedPaths roots listings := by
      simp [walkedPaths]
    rw [hcons, List.count_append, ih hroots, List.filter_cons, hnodup.count]
    by_cases hholds : ∃ rel, IsRepository wildmatch exclude (trees root) root rel ∧
        pushFullPath root rel = path
    · rw [if_pos (hmem.mpr hholds), if_pos (by simpa using hholds), List.length_cons, Nat.add_comm]
    · rw [if_neg (mt hmem.mp hholds), if_neg (by simpa using hholds), Nat.zero_add]

/-- Every path that was found is named by the first root that contains it. -/
lemma ListsAll.exists_named (h : ListsAll wildmatch exclude trees roots listings)
    (hroots : ∀ root ∈ roots, Clean root) :
    ∃ repos, collect roots listings = some repos ∧
      repos.map Repo.abs = walkedPaths roots listings ∧
      ∀ r ∈ repos, ∃ i root, IsFirst roots r.abs i root ∧ pushFullPath root r.rel = r.abs ∧
        (r.underPrimary = true ↔ i = 0) := by
  obtain ⟨paths, spans, hrun, hcollected⟩ := nameRepositories_eq hroots h.listed
  have hcollect : collect roots listings = some (spans.map (Naming.repo paths)) := by
    rw [collect, hrun]
    rfl
  have habs : (spans.map (Naming.repo paths)).map Repo.abs = walkedPaths roots listings := by
    rw [← hcollected.abs, List.map_map]
    rfl
  refine ⟨_, hcollect, habs, fun r hr => ?_⟩
  obtain ⟨span, hspan, rfl⟩ := List.mem_map.mp hr
  have hclean : Clean (span.abs paths) := by
    have hmem : span.abs paths ∈ walkedPaths roots listings := by
      rw [← hcollected.abs]
      exact List.mem_map_of_mem hspan
    obtain ⟨⟨root, listing⟩, hzip, hpath⟩ := List.mem_flatMap.mp hmem
    obtain ⟨rel, hrel, hpath⟩ := List.mem_map.mp hpath
    obtain ⟨hroot, hlisting⟩ := List.of_mem_zip hzip
    rw [← hpath]
    exact (clean_pushFullPath (hroots root hroot) (h.listed listing hlisting rel hrel)).1
  exact (named_eq_some hroots hclean (hcollected.named span hspan)).2

/-- Other listings of the same roots are the same repositories. -/
lemma ListsAll.perm_collect {listings' : List RootListing} {repos repos' : List Repo}
    (h : ListsAll wildmatch exclude trees roots listings)
    (h' : ListsAll wildmatch exclude trees roots listings') (hroots : ∀ root ∈ roots, Clean root)
    (hcollect : collect roots listings = some repos)
    (hcollect' : collect roots listings' = some repos') : repos.Perm repos' := by
  rw [Option.some.inj (hcollect.symm.trans (collect_eq hroots h.listed)),
    Option.some.inj (hcollect'.symm.trans (collect_eq hroots h'.listed))]
  exact (h.perm h').filterMap _

end Collect

/-! ## Runs over all roots -/

section Walks

variable {wildmatch : Bytes → Bytes → Bool} {cache : Cache} {s s' : CacheWorld} {root : Bytes}
  {roots : List Bytes} {opts : WalkOptions} {mode : Mode} {lines : List DiffLine}

/-- In every mode one root is listed exactly, and nothing is reported. -/
lemma WalkOne.exact (hs : s.Reachable wildmatch cache) (hroot : CacheWorld.IsRoot root)
    (hcount : opts.exclude.length < 2 ^ 32)
    (hpattern : ∀ pattern ∈ opts.exclude, pattern.length < 2 ^ 32)
    {result : Except WalkError (RootListing × Bool)}
    (h : WalkOne wildmatch cache mode opts root s result lines s') :
    ∃ listing, result = .ok (listing, false) ∧ lines = [] ∧
      ListsExactly wildmatch opts.exclude (s.tree root) root listing ∧
      s'.Reachable wildmatch cache ∧ s'.tree = s.tree := by
  cases mode with
  | off =>
    obtain ⟨walked, hwalk, rfl, rfl, rfl⟩ := h
    have hadmits := (hs.sound root hroot none (.inl rfl)).admits
    obtain ⟨listing, rfl, hlists⟩ := hwalk.listsExactly hadmits hroot.noNul
    exact ⟨listing, rfl, rfl, hlists, hs, rfl⟩
  | on =>
    obtain ⟨now, file, listed, stored, hfile, hlist, rfl, rfl, rfl⟩ := h
    obtain ⟨listing, rfl, hlists⟩ :=
      (hs.sound root hroot file hfile).listRoot hroot.noNul (.inl rfl) hlist
    exact ⟨listing, rfl, rfl, hlists, hs.tail (.list root opts now file _ stored hroot hcount
      hpattern hfile hlist), CacheWorld.tree_store ..⟩
  | check =>
    obtain ⟨now, file, stored, hfile, hcheck, rfl⟩ := h
    obtain ⟨fresh, rfl, rfl, hlists⟩ :=
      (hs.sound root hroot file hfile).checkRoot hroot.noNul (.inl rfl) hcheck
    exact ⟨fresh, rfl, rfl, hlists, hs.tail (.check root opts now file _ _ stored hroot hcount
      hpattern hfile hcheck), CacheWorld.tree_store ..⟩

/-- Without believing the index, one root is listed exactly, whatever the files hold; the verdict is
whether anything was reported. -/
lemma WalkOne.listsExactly (hmode : mode ≠ .on) (hadmits : World.Admits (s.tree root))
    (hnul : 0 ∉ root) {result : Except WalkError (RootListing × Bool)}
    (h : WalkOne wildmatch cache mode opts root s result lines s') :
    ∃ listing differs, result = .ok (listing, differs) ∧ (differs = true ↔ lines ≠ []) ∧
      (mode = .off → lines = []) ∧
      ListsExactly wildmatch opts.exclude (s.tree root) root listing ∧ s'.tree = s.tree := by
  cases mode with
  | off =>
    obtain ⟨walked, hwalk, rfl, rfl, rfl⟩ := h
    obtain ⟨listing, rfl, hlists⟩ := hwalk.listsExactly hadmits hnul
    exact ⟨listing, false, rfl, by simp, fun _ => rfl, hlists, rfl⟩
  | on => exact absurd rfl hmode
  | check =>
    obtain ⟨now, file, stored, -, hcheck, rfl⟩ := h
    obtain ⟨fresh, differs, rfl, hverdict, hlists⟩ := hcheck.listsExactly hadmits hnul
    exact ⟨fresh, differs, rfl, hverdict, (by simp), hlists, CacheWorld.tree_store ..⟩

/-- In every mode one root can be listed. -/
lemma exists_walkOne (hs : s.Reachable wildmatch cache) (hroot : CacheWorld.IsRoot root)
    (mode : Mode) (opts : WalkOptions) :
    ∃ result lines s', WalkOne wildmatch cache mode opts root s result lines s' := by
  have hadmits := (hs.sound root hroot none (.inl rfl)).admits
  cases mode with
  | off =>
    obtain ⟨listing, hwalk⟩ := exists_walkRoot wildmatch hadmits hroot.noNul opts
    exact ⟨_, _, _, listing, hwalk, rfl, rfl, rfl⟩
  | on =>
    obtain ⟨result, stored, hlist⟩ := World.exists_listRoot wildmatch hadmits hroot.noNul opts 0
      none
    exact ⟨_, _, _, 0, none, result, stored, .inl rfl, hlist, rfl, rfl, rfl⟩
  | check =>
    obtain ⟨result, lines, stored, hcheck⟩ := World.exists_checkRoot wildmatch hadmits
      hroot.noNul opts 0 none
    exact ⟨result, lines, _, 0, none, stored, .inl rfl, hcheck, rfl⟩

/-- In every mode all roots are listed exactly, and nothing is reported. -/
lemma WalkRoots.exact (hcount : opts.exclude.length < 2 ^ 32)
    (hpattern : ∀ pattern ∈ opts.exclude, pattern.length < 2 ^ 32)
    (hroots : ∀ root ∈ roots, CacheWorld.IsRoot root) (hs : s.Reachable wildmatch cache)
    {result : Except WalkError (List RootListing × Bool)}
    (h : WalkRoots wildmatch cache mode opts roots s result lines s') :
    ∃ listings, result = .ok (listings, false) ∧ lines = [] ∧
      ListsAll wildmatch opts.exclude s.tree roots listings ∧
      s'.Reachable wildmatch cache ∧ s'.tree = s.tree := by
  induction roots generalizing s result lines with
  | nil =>
    obtain ⟨rfl, rfl, rfl⟩ := h
    exact ⟨[], rfl, rfl, .nil, hs, rfl⟩
  | cons root roots ih =>
    obtain ⟨hroot, hroots⟩ := List.forall_mem_cons.mp hroots
    obtain ⟨one, here, between, hone, h⟩ := h
    obtain ⟨listing, rfl, rfl, hlists, hbetween, htree⟩ := hone.exact hs hroot hcount hpattern
    obtain ⟨rest, there, hrest, rfl, rfl⟩ := h
    obtain ⟨listings, rfl, rfl, hall, hs', htree'⟩ := ih hroots hbetween hrest
    rw [htree] at hall htree'
    exact ⟨listing :: listings, rfl, rfl, .cons hlists hall, hs', htree'⟩

/-- Without believing the index, all roots are listed exactly, whatever the files hold. -/
lemma WalkRoots.listsAll (hmode : mode ≠ .on)
    (hroots : ∀ root ∈ roots, World.Admits (s.tree root) ∧ 0 ∉ root)
    {result : Except WalkError (List RootListing × Bool)}
    (h : WalkRoots wildmatch cache mode opts roots s result lines s') :
    ∃ listings differs, result = .ok (listings, differs) ∧ (differs = true ↔ lines ≠ []) ∧
      (mode = .off → lines = []) ∧ ListsAll wildmatch opts.exclude s.tree roots listings := by
  induction roots generalizing s result lines with
  | nil =>
    obtain ⟨rfl, rfl, rfl⟩ := h
    exact ⟨[], false, rfl, by simp, fun _ => rfl, .nil⟩
  | cons root roots ih =>
    obtain ⟨⟨hadmits, hnul⟩, hroots⟩ := List.forall_mem_cons.mp hroots
    obtain ⟨one, here, between, hone, h⟩ := h
    obtain ⟨listing, differs, rfl, hverdict, hoff, hlists, htree⟩ :=
      hone.listsExactly hmode hadmits hnul
    obtain ⟨rest, there, hrest, rfl, rfl⟩ := h
    obtain ⟨listings, others, rfl, hverdicts, hoffs, hall⟩ := ih (htree ▸ hroots) hrest
    rw [htree] at hall
    refine ⟨listing :: listings, differs || others, rfl, ?_, fun hmode => ?_, .cons hlists hall⟩
    · rw [Bool.or_eq_true, hverdict, hverdicts, Ne, Ne, Ne, List.append_eq_nil_iff, not_and_or]
    · rw [hoff hmode, hoffs hmode, List.append_nil]

/-- In every mode all roots can be listed. -/
lemma exists_walkRoots (opts : WalkOptions) (hcount : opts.exclude.length < 2 ^ 32)
    (hpattern : ∀ pattern ∈ opts.exclude, pattern.length < 2 ^ 32)
    (hroots : ∀ root ∈ roots, CacheWorld.IsRoot root) (hs : s.Reachable wildmatch cache)
    (mode : Mode) :
    ∃ result lines s', WalkRoots wildmatch cache mode opts roots s result lines s' := by
  induction roots generalizing s with
  | nil => exact ⟨_, _, _, rfl, rfl, rfl⟩
  | cons root roots ih =>
    obtain ⟨hroot, hroots⟩ := List.forall_mem_cons.mp hroots
    obtain ⟨one, here, between, hone⟩ := exists_walkOne hs hroot mode opts
    obtain ⟨listing, rfl, -, -, hbetween, -⟩ := hone.exact hs hroot hcount hpattern
    obtain ⟨rest, there, s', hrest⟩ := ih hroots hbetween
    exact ⟨_, _, s', _, _, _, hone, rest, there, hrest, rfl, rfl⟩

/-- All roots can be listed exactly. -/
lemma exists_listsAll {exclude : List Bytes} (hcount : exclude.length < 2 ^ 32)
    (hpattern : ∀ pattern ∈ exclude, pattern.length < 2 ^ 32)
    (hroots : ∀ root ∈ roots, CacheWorld.IsRoot root) (hs : s.Reachable wildmatch cache) :
    ∃ listings, ListsAll wildmatch exclude s.tree roots listings := by
  obtain ⟨result, lines, s', hwalk⟩ :=
    exists_walkRoots ⟨1, exclude, .statFirst, false⟩ hcount hpattern hroots hs .off
  obtain ⟨listings, -, -, hall, -⟩ := hwalk.exact hcount hpattern hroots hs
  exact ⟨listings, hall⟩

/-- Supported arguments are not refused. -/
lemma filter_supportedVcs {args : Args}
    (h : ∀ vcs, args.vcs = some vcs → supportedVcs vcs = true) :
    args.vcs.filter (fun vcs => !supportedVcs vcs) = none := by
  rw [Option.filter_eq_none_iff]
  intro vcs hsome
  simp [h vcs hsome]

/-- A run of `list` can end. -/
lemma exists_listRun {canon : Bytes → Option Bytes} (toLowercase : Str → Str)
    {snapshot : Config.ConfigSnapshot} (args : Args) (hs : s.Reachable wildmatch cache)
    (hresolve : Config.resolveRoots canon snapshot true = .ok roots)
    (hroots : ∀ root ∈ roots, Clean root ∧ CacheWorld.IsRoot root)
    (hcount : (snapshot.listExclude.map toBytes).length < 2 ^ 32)
    (hpattern : ∀ pattern ∈ snapshot.listExclude.map toBytes, pattern.length < 2 ^ 32)
    (threads : ℕ) (detect : DetectStrategy) (written : Except WriteError Unit)
    (hvcs : ∀ vcs, args.vcs = some vcs → supportedVcs vcs = true) :
    ∃ printed s', ListRun wildmatch cache canon toLowercase snapshot threads detect written args s
      printed s' := by
  have hisRoot : ∀ root ∈ roots, CacheWorld.IsRoot root := fun root hroot => (hroots root hroot).2
  obtain ⟨walked, lines, s', hwalk⟩ := exists_walkRoots
    ⟨threads, snapshot.listExclude.map toBytes, detect, false⟩ hcount hpattern hisRoot hs
    (mode args.cache args.noCache args.cacheCheck snapshot.listCache)
  obtain ⟨listings, rfl, rfl, hall, -⟩ := hwalk.exact hcount hpattern hisRoot hs
  obtain ⟨repos, hcollect, -⟩ := hall.exists_named fun root hroot => (hroots root hroot).1
  refine ⟨⟨output (formatLines args (filterRepos toLowercase repos args.toListArgs)), [],
    conclude written false⟩, s', ?_⟩
  simp only [ListRun, filter_supportedVcs hvcs, hresolve]
  exact ⟨_, _, hwalk, by simp only [hcollect]⟩

/-- A run of `list` prints the repositories that it has collected from its listings. -/
lemma ListRun.exists_collect {canon : Bytes → Option Bytes} {toLowercase : Str → Str}
    {snapshot : Config.ConfigSnapshot} {args : Args} {threads : ℕ} {detect : DetectStrategy}
    {written : Except WriteError Unit} {printed : Printed}
    (hrun : ListRun wildmatch cache canon toLowercase snapshot threads detect written args s printed
      s') (hs : s.Reachable wildmatch cache)
    (hresolve : Config.resolveRoots canon snapshot true = .ok roots)
    (hroots : ∀ root ∈ roots, Clean root ∧ CacheWorld.IsRoot root)
    (hcount : (snapshot.listExclude.map toBytes).length < 2 ^ 32)
    (hpattern : ∀ pattern ∈ snapshot.listExclude.map toBytes, pattern.length < 2 ^ 32)
    (hvcs : ∀ vcs, args.vcs = some vcs → supportedVcs vcs = true) :
    ∃ listings repos, ListsAll wildmatch (snapshot.listExclude.map toBytes) s.tree roots listings ∧
      collect roots listings = some repos ∧
      printed = ⟨output (formatLines args (filterRepos toLowercase repos args.toListArgs)), [],
        conclude written false⟩ := by
  simp only [ListRun, filter_supportedVcs hvcs, hresolve] at hrun
  obtain ⟨walked, lines, hwalk, hprinted⟩ := hrun
  obtain ⟨listings, rfl, rfl, hall, -⟩ := hwalk.exact hcount hpattern
    (fun root hroot => (hroots root hroot).2) hs
  obtain ⟨repos, hcollect, -⟩ := hall.exists_named fun root hroot => (hroots root hroot).1
  simp only [hcollect] at hprinted
  exact ⟨listings, repos, hall, hcollect, hprinted⟩

end Walks

/-! ## What is printed -/

open Classical in
/-- **What `list` prints is decided by the trees below the roots.**  There are repositories, each
found once for every root that holds it and named by the first root that contains it, such that
every run over these roots and exclusions can end and prints these, whatever the mode, the number of
threads, the strategy, the schedule and the index files: it filters them, formats them and sorts the
lines, and reports no difference. -/
theorem list_prints (wildmatch : Bytes → Bytes → Bool) (cache : Cache)
    (canon : Bytes → Option Bytes) (toLowercase : Str → Str) (s : CacheWorld)
    (hs : s.Reachable wildmatch cache) (roots : List Bytes)
    (hroots : ∀ root ∈ roots, Clean root ∧ CacheWorld.IsRoot root) (exclude : List Str)
    (hcount : exclude.length < 2 ^ 32)
    (hpattern : ∀ pattern ∈ exclude, (toBytes pattern).length < 2 ^ 32) :
    ∃ repos : List Repo,
      (∀ path, (repos.map Repo.abs).count path = (roots.filter fun root =>
        ∃ rel, IsRepository wildmatch (exclude.map toBytes) (s.tree root) root rel ∧
          pushFullPath root rel = path).length) ∧
      (∀ r ∈ repos, ∃ i root, IsFirst roots r.abs i root ∧ pushFullPath root r.rel = r.abs ∧
        (r.underPrimary = true ↔ i = 0)) ∧
      ∀ snapshot threads detect written args,
        Config.resolveRoots canon snapshot true = .ok roots → snapshot.listExclude = exclude →
        (∀ vcs, args.vcs = some vcs → supportedVcs vcs = true) →
        (∃ printed s', ListRun wildmatch cache canon toLowercase snapshot threads detect written
          args s printed s') ∧
        ∀ printed s', ListRun wildmatch cache canon toLowercase snapshot threads detect written
          args s printed s' →
          printed = ⟨output (formatLines args (filterRepos toLowercase repos args.toListArgs)), [],
            conclude written false⟩ := by
  have hclean : ∀ root ∈ roots, Clean root := fun root hroot => (hroots root hroot).1
  have hcount' : (exclude.map toBytes).length < 2 ^ 32 := by rwa [List.length_map]
  have hpattern' : ∀ pattern ∈ exclude.map toBytes, pattern.length < 2 ^ 32 := by
    simpa using hpattern
  -- The repositories are those of some listings; every run finds a rearrangement of them.
  obtain ⟨listings, hall⟩ := exists_listsAll hcount' hpattern'
    (fun root hroot => (hroots root hroot).2) hs
  obtain ⟨repos, hcollect, habs, hnamed⟩ := hall.exists_named hclean
  refine ⟨repos, fun path => ?_, hnamed, ?_⟩
  · rw [habs, hall.count_walkedPaths hclean]
  rintro snapshot threads detect written args hresolve rfl hvcs
  constructor
  · exact exists_listRun toLowercase args hs hresolve hroots hcount' hpattern' threads detect
      written hvcs
  · intro printed s' hrun
    obtain ⟨listings', repos', hall', hcollect', rfl⟩ :=
      hrun.exists_collect hs hresolve hroots hcount' hpattern' hvcs
    rw [output_filterRepos_perm toLowercase (hall'.perm_collect hall hclean hcollect' hcollect)
      args]

/-- One root, from the environment. -/
def sampleSnapshot : Config.ConfigSnapshot where
  env := ⟨none, some (ascii ['/', 'r']), none, none⟩
  roots := []
  urlScopedRoots := []
  user := none
  completeUser := false
  listExclude := []
  listCache := true
  backend := .inProcess
  reason := .inProcess

/-- The sample has one root. -/
lemma resolveRoots_sampleSnapshot :
    Config.resolveRoots (fun _ => none) sampleSnapshot true = .ok [ascii ['/', 'r']] := rfl

/-- The root of the sample is clean and may have an index. -/
lemma clean_of_mem_sampleRoots {root : Bytes} (hroot : root ∈ [ascii ['/', 'r']]) :
    Clean root ∧ CacheWorld.IsRoot root := by
  obtain rfl := List.mem_singleton.mp hroot
  exact ⟨⟨[ascii ['r']], by decide, rfl⟩, by decide, by decide⟩

/-- From an index that a clone has made stale, a run prints what there is without a complaint. -/
theorem list_prints_sample : ∃ (s : CacheWorld) (index : Index) (printed : Printed)
    (s' : CacheWorld), s.tree = grownTrees ∧
    CacheWorld.MayRead sampleCache s (ascii ['/', 'r']) (some index.encode) ∧
    ListRun (fun _ _ => false) sampleCache (fun _ => none) id sampleSnapshot 2 .statFirst (.ok ())
      ⟨⟨false, none⟩, none, true, false, false, false, false⟩ s printed s' ∧
    printed.stderr = [] ∧ printed.status = .success := by
  obtain ⟨s, index, -, hreach, htree, hfile, -⟩ := exists_grown_cacheWorld
  obtain ⟨repos, -, -, hall⟩ := list_prints (fun _ _ => false) sampleCache (fun _ => none) id s
    hreach [ascii ['/', 'r']] (fun _ => clean_of_mem_sampleRoots) [] (by decide) (by simp)
  obtain ⟨⟨printed, s', hrun⟩, hprints⟩ := hall sampleSnapshot 2 .statFirst (.ok ())
    ⟨⟨false, none⟩, none, true, false, false, false, false⟩ resolveRoots_sampleSnapshot rfl
    (by simp)
  refine ⟨s, index, printed, s', htree, hfile, hrun, ?_⟩
  rw [hprints printed s' hrun]
  exact ⟨rfl, rfl⟩

/-- Whatever the index files hold, `--cache-check` prints the bytes that `--no-cache` prints, and
fails exactly if it reported a difference for some root or stdout failed. -/
theorem check_prints_walk (wildmatch : Bytes → Bytes → Bool) (cache : Cache)
    (canon : Bytes → Option Bytes) (toLowercase : Str → Str) (s : CacheWorld)
    (snapshot : Config.ConfigSnapshot) (roots : List Bytes)
    (hresolve : Config.resolveRoots canon snapshot true = .ok roots)
    (hroots : ∀ root ∈ roots, Clean root ∧ 0 ∉ root ∧ World.Admits (s.tree root)) (args : Args)
    (hvcs : ∀ vcs, args.vcs = some vcs → supportedVcs vcs = true)
    (threads threads' : ℕ) (detect detect' : DetectStrategy)
    (written written' : Except WriteError Unit) (checked walked : Printed) (s₁ s₂ : CacheWorld)
    (hcheck : ListRun wildmatch cache canon toLowercase snapshot threads detect written
      { args with noCache := false, cacheCheck := true } s checked s₁)
    (hwalk : ListRun wildmatch cache canon toLowercase snapshot threads' detect' written'
      { args with noCache := true, cacheCheck := false } s walked s₂) :
    checked.stdout = walked.stdout ∧ walked.stderr = [] ∧ walked.status = conclude written' false ∧
      checked.status = conclude written (decide (checked.stderr ≠ [])) := by
  have hsupported := filter_supportedVcs hvcs
  have hclean : ∀ root ∈ roots, Clean root := fun root hroot => (hroots root hroot).1
  have hadmits : ∀ root ∈ roots, World.Admits (s.tree root) ∧ 0 ∉ root := fun root hroot =>
    ⟨(hroots root hroot).2.2, (hroots root hroot).2.1⟩
  simp only [ListRun, hsupported, hresolve, mode, if_true] at hcheck
  simp only [ListRun, hsupported, hresolve, mode, Bool.false_eq_true, if_true, if_false] at hwalk
  obtain ⟨result, lines, hcheck, hchecked⟩ := hcheck
  obtain ⟨result', lines', hwalk, hwalked⟩ := hwalk
  obtain ⟨listings, differs, rfl, hverdict, -, hall⟩ := hcheck.listsAll (by simp) hadmits
  obtain ⟨listings', differs', rfl, hverdict', hoff, hall'⟩ := hwalk.listsAll (by simp) hadmits
  obtain ⟨repos, hcollect, -⟩ := hall.exists_named hclean
  obtain ⟨repos', hcollect', -⟩ := hall'.exists_named hclean
  have hperm : repos.Perm repos' := hall.perm_collect hall' hclean hcollect hcollect'
  simp only [hcollect] at hchecked
  simp only [hcollect'] at hwalked
  obtain rfl := hoff rfl
  obtain rfl : differs' = false := Bool.eq_false_iff.mpr fun h => hverdict'.mp h rfl
  have hdiffers : differs = decide (lines ≠ []) := by
    rw [Bool.eq_iff_iff, hverdict, decide_eq_true_iff]
  rw [hchecked, hwalked]
  exact ⟨output_filterRepos_perm toLowercase hperm _, rfl, rfl, by rw [hdiffers]⟩

/-- A check and a walk of the sample print the same. -/
theorem check_prints_walk_sample : ∃ checked walked s₁ s₂,
    ListRun (fun _ _ => false) ⟨none⟩ (fun _ => none) id sampleSnapshot 2 .statFirst (.ok ())
      ⟨⟨false, none⟩, none, false, false, false, false, true⟩ sampleCacheWorld checked s₁ ∧
    ListRun (fun _ _ => false) ⟨none⟩ (fun _ => none) id sampleSnapshot 1 .openScan (.ok ())
      ⟨⟨false, none⟩, none, false, false, false, true, false⟩ sampleCacheWorld walked s₂ ∧
    checked.stdout = walked.stdout := by
  have hroots : ∀ root ∈ [ascii ['/', 'r']], Clean root ∧ CacheWorld.IsRoot root :=
    fun _ => clean_of_mem_sampleRoots
  have hreach : sampleCacheWorld.Reachable (fun _ _ => false) ⟨none⟩ :=
    .initial (sampleCacheWorld_initial _)
  obtain ⟨checked, s₁, hcheck⟩ := exists_listRun id
    ⟨⟨false, none⟩, none, false, false, false, false, true⟩ hreach
    resolveRoots_sampleSnapshot hroots (by decide) (by simp [sampleSnapshot]) 2 .statFirst (.ok ())
    (by simp)
  obtain ⟨walked, s₂, hwalk⟩ := exists_listRun id
    ⟨⟨false, none⟩, none, false, false, false, true, false⟩ hreach
    resolveRoots_sampleSnapshot hroots (by decide) (by simp [sampleSnapshot]) 1 .openScan (.ok ())
    (by simp)
  refine ⟨checked, walked, s₁, s₂, hcheck, hwalk, ?_⟩
  exact (check_prints_walk (fun _ _ => false) ⟨none⟩ (fun _ => none) id sampleCacheWorld
    sampleSnapshot [ascii ['/', 'r']] resolveRoots_sampleSnapshot (fun root hroot =>
      ⟨(hroots root hroot).1, (hroots root hroot).2.noNul,
        (sampleCacheWorld_initial ⟨none⟩).admits root⟩)
    ⟨⟨false, none⟩, none, false, false, false, false, false⟩ (by simp) 2 1 .statFirst .openScan
    (.ok ()) (.ok ()) checked walked s₁ s₂ hcheck hwalk).1

end Scap.Listing
