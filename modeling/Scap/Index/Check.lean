import Scap.Foundations.Sorting
import Scap.Index.Runs

/-!
# Checking the index

`Cache::check_root`, `report_diff` and `mode` (`src/index.rs`): the operation behind
`list --cache-check`, which walks a root, reproduces the listing through the index, reports where
the two differ, and writes the index anew from the walk.

A check never reports anything about an index that `list_root` and `check_root` maintain, and one
check that writes makes any file such an index (`check_root_repairs`).
-/

namespace Scap

/-! ## The operation -/

/-- Whether, and how, `list` consults the repository index. -/
inductive Mode where
  /-- Walk every root; never read or write an index. -/
  | off
  /-- Answer from the index where it validates, walk what it does not, and write it back. -/
  | on
  /-- Answer from the index and walk every root, compare the two, and report any difference. -/
  | check
deriving Repr, DecidableEq

/-- `mode`: the mode the flags of `list` and the configuration ask for. -/
def mode (cache noCache cacheCheck configured : Bool) : Mode :=
  if cacheCheck then .check
  else if noCache then .off
  else if cache || configured then .on
  else .off

/-- A line on stderr. -/
inductive DiffLine where
  /-- The index disagrees with a fresh walk of this root. -/
  | disagrees (root : Bytes)
  /-- The path is in the index, not on disk. -/
  | inIndex (path : Bytes)
  /-- The path is on disk, not in the index. -/
  | onDisk (path : Bytes)
deriving Repr, DecidableEq

/-- `report_diff`: what it prints, and whether there was a difference. -/
def reportDiff (root : Bytes) (cached fresh : RootListing) : List DiffLine × Bool :=
  let cached := Sorting.sorted cached.arena
  let fresh := Sorting.sorted fresh.arena
  if cached = fresh then ([], false)
  else
    (.disagrees root :: ((cached.filter fun p => !fresh.contains p).map .inIndex ++
      (fresh.filter fun p => !cached.contains p).map .onDisk), true)

section

variable (wildmatch : Bytes → Bytes → Bool) (host : Host) (root : Bytes) (opts : WalkOptions)

/-- `check_root` returns `result`, having read `file` as the index file, printed `lines` and stored
`stored`. -/
def CheckRoot (now : Int64) (file : Option Bytes) (result : Except WalkError (RootListing × Bool))
    (lines : List DiffLine) (stored : Option Index) : Prop :=
  let opts := { opts with record := true }
  ∃ cached, CachedListing wildmatch host root opts file cached ∧
    match cached with
    | .error err => result = .error err ∧ lines = [] ∧ stored = none
    | .ok cached => ∃ walked, WalkRoot wildmatch host root opts walked ∧
      match walked with
      | .error err => result = .error err ∧ lines = [] ∧ stored = none
      | .ok fresh => StoreIfComplete host root opts now fresh stored ∧
        match cached with
        | none => result = .ok (fresh, false) ∧ lines = []
        | some cached => result = .ok (fresh, (reportDiff root cached fresh).2) ∧
          lines = (reportDiff root cached fresh).1

end

/-! ## What is reported -/

section Report

variable {root : Bytes} {cached fresh : RootListing}

/-- There is nothing to report about two orders of one listing. -/
lemma reportDiff_of_perm (h : cached.arena.Perm fresh.arena) :
    reportDiff root cached fresh = ([], false) := by
  rw [reportDiff, if_pos (Sorting.sorted_eq_iff.mpr h)]

/-- Two listings differ in the report exactly if one is no rearrangement of the other, and then
each path that only one of them holds is reported on that one's side and no other path is. -/
lemma reportDiff_exact (root : Bytes) (cached fresh : RootListing) :
    ((reportDiff root cached fresh).2 = true ↔ ¬cached.arena.Perm fresh.arena) ∧
      (∀ path, .inIndex path ∈ (reportDiff root cached fresh).1 ↔
        path ∈ cached.arena ∧ path ∉ fresh.arena) ∧
      ∀ path, .onDisk path ∈ (reportDiff root cached fresh).1 ↔
        path ∈ fresh.arena ∧ path ∉ cached.arena := by
  by_cases hperm : cached.arena.Perm fresh.arena
  · rw [reportDiff_of_perm hperm]
    simp [hperm, hperm.mem_iff]
  · rw [reportDiff, if_neg (mt Sorting.sorted_eq_iff.mp hperm)]
    simp [hperm]

/-- There is a difference exactly if something is printed. -/
lemma reportDiff_snd (root : Bytes) (cached fresh : RootListing) :
    (reportDiff root cached fresh).2 = true ↔ (reportDiff root cached fresh).1 ≠ [] := by
  unfold reportDiff
  dsimp only
  split_ifs <;> simp

end Report

/-! ## One check -/

section Check

variable {wildmatch : Bytes → Bytes → Bool} {root : Bytes} {t : Tree} {opts : WalkOptions}
  {now : Int64} {file : Option Bytes} {result : Except WalkError (RootListing × Bool)}
    {lines : List DiffLine} {stored : Option Index}

/-- To the index file, a check that stores is a run of `list_root` that could not read it. -/
lemma CheckRoot.listRoot {host : Host} {index : Index}
    (h : CheckRoot wildmatch host root opts now file result lines (some index)) :
    ∃ listed, ListRoot wildmatch host root opts now none listed (some index) := by
  obtain ⟨cached, -, h⟩ := h
  have hnone : CachedListing wildmatch host root { opts with record := true } none (.ok none) := by
    simp [CachedListing, load]
  cases cached with
  | error err => exact absurd h.2.2 (by simp)
  | ok cached =>
    obtain ⟨walked, hwalk, h⟩ := h
    cases walked with
    | error err => exact absurd h.2.2 (by simp)
    | ok fresh => exact ⟨_, _, hnone, hwalk, h.1⟩

/-- What the index answers, if it answers, is complete. -/
lemma CachedListing.complete (h : t.Plain) (hdir : t.IsDir []) (hnul : 0 ∉ root)
    (hfile : ∀ index, load file = some index → index.root = root →
      ∃ before, index.Remembers wildmatch root before ∧ Evidence before index t)
    {cached : Except WalkError (Option RootListing)}
    (hcached : CachedListing wildmatch t.host root { opts with record := true } file cached) :
    ∃ answer, cached = .ok answer ∧ ∀ listing, answer = some listing →
      ∃ found, listing.Finds { opts with record := true } found ∧
        t.Complete wildmatch opts.exclude root found := by
  cases cached with
  | error err =>
    have hlist : ListRoot wildmatch t.host root opts 0 file (.error err) none :=
      ⟨_, hcached, rfl, rfl⟩
    obtain ⟨listing, -, hresult, -⟩ := hlist.complete h hdir hnul hfile
    cases hresult
  | ok answer =>
    refine ⟨answer, rfl, ?_⟩
    rintro listing rfl
    have hlist : ListRoot wildmatch t.host root opts 0 file (.ok listing) none :=
      ⟨_, hcached, rfl, storeIfComplete_none ..⟩
    obtain ⟨_, found, hresult, hfinds, hcomplete, -⟩ := hlist.complete h hdir hnul hfile
    cases hresult
    exact ⟨found, hfinds, hcomplete⟩

/-- Complete listings of one tree are rearrangements of each other. -/
lemma Out.Finds.perm {opts opts' : WalkOptions} {listing listing' : RootListing}
    {found found' : List Record} {exclude : List Bytes} (h : listing.Finds opts found)
    (hcomplete : t.Complete wildmatch exclude root found) (h' : listing'.Finds opts' found')
    (hcomplete' : t.Complete wildmatch exclude root found') :
    listing.arena.Perm listing'.arena := by
  have hperm : (Tree.reposOf found).Perm (Tree.reposOf found') :=
    (List.perm_ext_iff_of_nodup hcomplete.nodup_reposOf hcomplete'.nodup_reposOf).mpr
      fun path => hcomplete.mem_reposOf_iff hcomplete'
  exact h.arena.trans (hperm.trans h'.arena.symm)

/-- A check on a root that is a directory returns a complete walk and reports nothing, if the file
holds no index of this root or one that is backed by evidence. -/
lemma CheckRoot.complete (h : t.Plain) (hdir : t.IsDir []) (hnul : 0 ∉ root)
    (hfile : ∀ index, load file = some index → index.root = root →
      ∃ before, index.Remembers wildmatch root before ∧ Evidence before index t)
    (hcheck : CheckRoot wildmatch t.host root opts now file result lines stored) :
    ∃ fresh found, result = .ok (fresh, false) ∧ lines = [] ∧
      fresh.Finds { opts with record := true } found ∧
      t.Complete wildmatch opts.exclude root found ∧
      StoreIfComplete t.host root { opts with record := true } now fresh stored := by
  obtain ⟨cached, hcached, hcheck⟩ := hcheck
  obtain ⟨answer, rfl, hanswer⟩ := hcached.complete h hdir hnul hfile
  obtain ⟨walked, hwalk, hcheck⟩ := hcheck
  obtain ⟨fresh, found, rfl, hfinds, hcomplete⟩ := hwalk.complete h hdir hnul
  obtain ⟨hstore, hcheck⟩ := hcheck
  cases answer with
  | none => exact ⟨fresh, found, hcheck.1, hcheck.2, hfinds, hcomplete, hstore⟩
  | some listing =>
    obtain ⟨found', hfinds', hcomplete'⟩ := hanswer listing rfl
    simp only [reportDiff_of_perm (hfinds'.perm hcomplete' hfinds hcomplete)] at hcheck
    exact ⟨fresh, found, hcheck.1, hcheck.2, hfinds, hcomplete, hstore⟩

/-- Where the root path names no directory, a check lists nothing, reports nothing and stores
nothing. -/
lemma CheckRoot.of_not_walkable {host : Host} (hwalkable : rootIsWalkable host = false)
    (hopen : ∃ err, host.openRoot = .error err) (hnul : 0 ∉ root)
    (hcheck : CheckRoot wildmatch host root opts now file result lines stored) :
    result = .ok (Out.new, false) ∧ lines = [] ∧ stored = none := by
  have hstored : stored = none := by
    cases stored with
    | none => rfl
    | some index =>
      obtain ⟨listed, hlist⟩ := hcheck.listRoot
      exact (hlist.of_not_walkable hwalkable hopen hnul).2
  obtain ⟨err, hopen⟩ := hopen
  obtain ⟨cached, hcached, hcheck⟩ := hcheck
  obtain rfl : cached = .ok none := by
    rw [CachedListing, hopen] at hcached
    cases hload : load file <;> simpa [hload] using hcached
  obtain ⟨walked, hwalk, hcheck⟩ := hcheck
  rw [WalkRoot, if_neg hnul, hwalkable] at hwalk
  obtain rfl : walked = .ok Out.new := by simpa using hwalk
  exact ⟨hcheck.2.1, hcheck.2.2, hstored⟩

/-! ## A check always ends -/

/-- If `list_root` can return, so can a check. -/
lemma ListRoot.exists_checkRoot {host : Host} {listed : Except WalkError RootListing}
    (hwalk : ∃ walked, WalkRoot wildmatch host root { opts with record := true } walked)
    (hlist : ListRoot wildmatch host root opts now file listed stored) :
    ∃ result lines stored, CheckRoot wildmatch host root opts now file result lines stored := by
  obtain ⟨cached, hcached, -⟩ := hlist
  obtain ⟨walked, hwalk⟩ := hwalk
  match cached, walked with
  | .error err, _ => exact ⟨_, _, none, _, hcached, rfl, rfl, rfl⟩
  | .ok cached, .error err => exact ⟨_, _, none, _, hcached, _, hwalk, rfl, rfl, rfl⟩
  | .ok none, .ok fresh =>
    exact ⟨_, _, none, _, hcached, _, hwalk, storeIfComplete_none .., rfl, rfl⟩
  | .ok (some listing), .ok fresh =>
    exact ⟨_, _, none, _, hcached, _, hwalk, storeIfComplete_none .., rfl, rfl⟩

end Check

/-! ## Listed repositories -/

section Listed

variable {wildmatch : Bytes → Bytes → Bool} {exclude : List Bytes} {t : Tree} {root : Bytes}
  {found : List Record}

/-- The repositories of a complete listing are the listed ones. -/
lemma Tree.Complete.mem_reposOf_listed (h : t.Complete wildmatch exclude root found)
    (hdir : t.IsDir []) {path : Bytes} :
    path ∈ Tree.reposOf found ↔ t.Listed wildmatch exclude root path := by
  unfold Tree.Complete at h
  split_ifs at h with hbare
  · subst h
    rw [Tree.Listed, if_pos (.inl hbare)]
    exact List.mem_singleton
  · exact Tree.mem_reposOf_found_iff hdir (Bool.not_eq_true _ ▸ hbare) h.2

end Listed

/-! ## Listings of a root -/

/-- A repository in what the root path names. -/
def IsRepository (wildmatch : Bytes → Bytes → Bool) (exclude : List Bytes) (tree : Option Tree)
    (root path : Bytes) : Prop :=
  ∃ t, tree = some t ∧ t.IsDir [] ∧ t.Listed wildmatch exclude root path

/-- A listing holds each repository once and nothing else. -/
structure ListsExactly (wildmatch : Bytes → Bytes → Bool) (exclude : List Bytes)
    (tree : Option Tree) (root : Bytes) (listing : RootListing) : Prop where
  nodup : listing.arena.Nodup
  mem_iff : ∀ path, path ∈ listing.arena ↔ IsRepository wildmatch exclude tree root path

section Listings

variable {wildmatch : Bytes → Bytes → Bool} {exclude : List Bytes} {tree : Option Tree}
  {root : Bytes} {opts : WalkOptions}

/-- Two exact listings are one up to order. -/
lemma ListsExactly.perm {listing listing' : RootListing}
    (h : ListsExactly wildmatch exclude tree root listing)
    (h' : ListsExactly wildmatch exclude tree root listing') :
    listing.arena.Perm listing'.arena :=
  (List.perm_ext_iff_of_nodup h.nodup h'.nodup).mpr fun path => by rw [h.mem_iff, h'.mem_iff]

/-- A complete listing of a directory. -/
lemma Out.Finds.listsExactly {t : Tree} {listing : RootListing} {found : List Record}
    (h : listing.Finds opts found) (hdir : t.IsDir [])
    (hcomplete : t.Complete wildmatch exclude root found) :
    ListsExactly wildmatch exclude (some t) root listing := by
  refine ⟨h.arena.nodup_iff.mpr hcomplete.nodup_reposOf, fun path => ?_⟩
  rw [h.arena.mem_iff, hcomplete.mem_reposOf_listed hdir]
  exact ⟨fun hlisted => ⟨t, rfl, hdir, hlisted⟩,
    fun ⟨_, heq, _, hlisted⟩ => Option.some.inj heq ▸ hlisted⟩

/-- Where the root path names no directory, nothing is listed. -/
lemma listsExactly_new (hwalkable : rootIsWalkable (hostOf tree) = false)
    (hadmits : World.Admits tree) : ListsExactly wildmatch exclude tree root Out.new := by
  refine ⟨List.nodup_nil, fun path => iff_of_false List.not_mem_nil ?_⟩
  rintro ⟨t, rfl, ⟨attr, r, x, entries, hat⟩, -⟩
  have hroot : t.root = .dir attr r x entries := by simpa using hat
  have hmode := ((hadmits t rfl).1.accessible [] attr r x entries hat).2.2
  simp [hostOf, rootIsWalkable, Tree.host, hroot, Node.stat, Node.fileType, Node.attr, hmode]
    at hwalkable

/-- A walk lists exactly. -/
lemma WalkRoot.listsExactly (hadmits : World.Admits tree) (hnul : 0 ∉ root)
    {result : Except WalkError RootListing}
    (hwalk : WalkRoot wildmatch (hostOf tree) root opts result) :
    ∃ listing, result = .ok listing ∧ ListsExactly wildmatch opts.exclude tree root listing := by
  rcases hostOf_cases tree with ⟨t, rfl, hdir⟩ | ⟨hwalkable, -⟩
  · obtain ⟨listing, found, rfl, hfinds, hcomplete⟩ :=
      hwalk.complete (hadmits t rfl).1 hdir hnul
    exact ⟨listing, rfl, hfinds.listsExactly hdir hcomplete⟩
  · rw [WalkRoot, if_neg hnul, hwalkable] at hwalk
    obtain rfl : result = .ok Out.new := by simpa using hwalk
    exact ⟨_, rfl, listsExactly_new hwalkable hadmits⟩

/-- A walk can return. -/
lemma exists_walkRoot (wildmatch : Bytes → Bytes → Bool) (hadmits : World.Admits tree)
    (hnul : 0 ∉ root) (opts : WalkOptions) :
    ∃ result, WalkRoot wildmatch (hostOf tree) root opts result := by
  rcases hostOf_cases tree with ⟨t, rfl, attr, r, x, entries, hat⟩ | ⟨hwalkable, -⟩
  · exact WalkRoot.exists_tree wildmatch (hadmits t rfl).1.accessible (by simpa using hat) hnul
  · refine ⟨.ok Out.new, ?_⟩
    rw [WalkRoot, if_neg hnul, hwalkable]
    rfl

namespace World

variable {w : World} {now : Int64} {file : Option Bytes} {lines : List DiffLine}
  {stored : Option Index}

/-- In a sound world a run of `list_root` lists exactly. -/
lemma Sound.listRoot (h : w.Sound wildmatch root) (hnul : 0 ∉ root)
    (hfile : file = w.file ∨ file = none) {result : Except WalkError RootListing}
    (hlist : ListRoot wildmatch (hostOf w.tree) root opts now file result stored) :
    ∃ listing, result = .ok listing ∧
      ListsExactly wildmatch opts.exclude w.tree root listing := by
  rcases hostOf_cases w.tree with ⟨t, ht, hdir⟩ | ⟨hwalkable, hopen⟩
  · rw [ht] at hlist ⊢
    obtain ⟨listing, found, rfl, hfinds, hcomplete, -⟩ :=
      hlist.complete (h.admits t ht).1 hdir hnul (h.remembers_file ht hfile)
    exact ⟨listing, rfl, hfinds.listsExactly hdir hcomplete⟩
  · obtain ⟨rfl, -⟩ := hlist.of_not_walkable hwalkable hopen hnul
    exact ⟨_, rfl, listsExactly_new hwalkable h.admits⟩

/-- In a sound world a check lists exactly and reports nothing. -/
lemma Sound.checkRoot (h : w.Sound wildmatch root) (hnul : 0 ∉ root)
    (hfile : file = w.file ∨ file = none) {result : Except WalkError (RootListing × Bool)}
    (hcheck : CheckRoot wildmatch (hostOf w.tree) root opts now file result lines stored) :
    ∃ fresh, result = .ok (fresh, false) ∧ lines = [] ∧
      ListsExactly wildmatch opts.exclude w.tree root fresh := by
  rcases hostOf_cases w.tree with ⟨t, ht, hdir⟩ | ⟨hwalkable, hopen⟩
  · rw [ht] at hcheck ⊢
    obtain ⟨fresh, found, rfl, rfl, hfinds, hcomplete, -⟩ :=
      hcheck.complete (h.admits t ht).1 hdir hnul (h.remembers_file ht hfile)
    exact ⟨fresh, rfl, rfl, hfinds.listsExactly hdir hcomplete⟩
  · obtain ⟨rfl, rfl, -⟩ := hcheck.of_not_walkable hwalkable hopen hnul
    exact ⟨_, rfl, rfl, listsExactly_new hwalkable h.admits⟩

/-- Whatever the index file holds, `list_root` can return. -/
lemma exists_listRoot (wildmatch : Bytes → Bytes → Bool) (hadmits : Admits w.tree)
    (hnul : 0 ∉ root) (opts : WalkOptions) (now : Int64) (file : Option Bytes) : ∃ result stored,
      ListRoot wildmatch (hostOf w.tree) root opts now file result stored := by
  rcases hostOf_cases w.tree with ⟨t, ht, hdir⟩ | ⟨hwalkable, hopen⟩
  · rw [ht]
    exact ListRoot.exists_tree (hadmits t ht).1.accessible hdir hnul
  · exact ListRoot.exists_of_not_walkable hwalkable hopen hnul

/-- Whatever the index file holds, a check can return. -/
lemma exists_checkRoot (wildmatch : Bytes → Bytes → Bool) (hadmits : Admits w.tree)
    (hnul : 0 ∉ root) (opts : WalkOptions) (now : Int64) (file : Option Bytes) :
    ∃ result lines stored,
      CheckRoot wildmatch (hostOf w.tree) root opts now file result lines stored := by
  obtain ⟨result, stored, hlist⟩ := exists_listRoot wildmatch hadmits hnul opts now file
  exact hlist.exists_checkRoot (exists_walkRoot wildmatch hadmits hnul _)

end World

/-- Re-walking subtrees of a root whose path holds no NUL does not fail. -/
lemma WalkSubtrees.exists_ok {host : Host} {rels : List Bytes} (hnul : 0 ∉ root)
    {result : Except WalkError RootListing}
    (h : WalkSubtrees wildmatch host root rels opts result) : ∃ listing, result = .ok listing := by
  unfold WalkSubtrees at h
  rw [if_neg hnul] at h
  split_ifs at h
  · exact ⟨_, h⟩
  · cases hbase : host.openBase with
    | error err => exact ⟨_, by simpa [hbase] using h⟩
    | ok =>
      obtain ⟨parts, -, hresult⟩ := by simpa [hbase] using h
      exact ⟨_, hresult⟩

/-- Nor does answering from an index, whatever the file holds. -/
lemma CachedListing.exists_ok {host : Host} {file : Option Bytes} (hnul : 0 ∉ root)
    {cached : Except WalkError (Option RootListing)}
    (h : CachedListing wildmatch host root opts file cached) : ∃ answer, cached = .ok answer := by
  unfold CachedListing at h
  split at h
  · split at h
    · exact ⟨_, h⟩
    · obtain ⟨outcome, -, h⟩ := h
      split at h
      · exact ⟨_, h⟩
      · obtain ⟨rewalked, hwalk, rfl⟩ := h
        obtain ⟨listing, rfl⟩ := hwalk.exists_ok hnul
        exact ⟨_, rfl⟩
  · exact ⟨_, h⟩

/-- A check returns a walk of the whole root, whatever the file holds, and may store its index. -/
lemma CheckRoot.exists_walkRoot {host : Host} {now : Int64} {file : Option Bytes}
    {result : Except WalkError (RootListing × Bool)} {lines : List DiffLine}
    {stored : Option Index} (hnul : 0 ∉ root)
    (h : CheckRoot wildmatch host root opts now file result lines stored) :
    ∃ walked, WalkRoot wildmatch host root { opts with record := true } walked ∧
      result.map Prod.fst = walked ∧ ∀ fresh stored, walked = .ok fresh →
        StoreIfComplete host root { opts with record := true } now fresh stored →
        CheckRoot wildmatch host root opts now file result lines stored := by
  obtain ⟨cached, hcached, h⟩ := h
  obtain ⟨answer, rfl⟩ := hcached.exists_ok hnul
  obtain ⟨walked, hwalk, h⟩ := h
  refine ⟨walked, hwalk, ?_⟩
  match walked, answer, h with
  | .error err, _, ⟨hresult, _, _⟩ =>
    exact ⟨by rw [hresult]; rfl, fun fresh stored hfresh => nomatch hfresh⟩
  | .ok fresh, none, ⟨_, hresult, hlines⟩ =>
    refine ⟨by rw [hresult]; rfl, fun _ stored hfresh hstore => ?_⟩
    exact ⟨_, hcached, _, hwalk, Except.ok.inj hfresh ▸ hstore, hresult, hlines⟩
  | .ok fresh, some cached, ⟨_, hresult, hlines⟩ =>
    refine ⟨by rw [hresult]; rfl, fun _ stored hfresh hstore => ?_⟩
    exact ⟨_, hcached, _, hwalk, Except.ok.inj hfresh ▸ hstore, hresult, hlines⟩

/-- The verdict of a check is whether it printed anything. -/
lemma CheckRoot.verdict {host : Host} {now : Int64} {file : Option Bytes} {fresh : RootListing}
    {differs : Bool} {lines : List DiffLine} {stored : Option Index}
    (h : CheckRoot wildmatch host root opts now file (.ok (fresh, differs)) lines stored) :
    differs = true ↔ lines ≠ [] := by
  obtain ⟨cached, -, h⟩ := h
  match cached, h with
  | .ok cached, ⟨.ok walked, _, _, h⟩ =>
    cases cached with
    | none =>
      obtain ⟨hresult, rfl⟩ := h
      obtain ⟨-, rfl⟩ := Prod.mk.inj (Except.ok.inj hresult)
      simp
    | some cached =>
      obtain ⟨hresult, rfl⟩ := h
      obtain ⟨-, rfl⟩ := Prod.mk.inj (Except.ok.inj hresult)
      exact reportDiff_snd root cached walked

/-- Whatever the file holds, a check lists exactly. -/
lemma CheckRoot.listsExactly {now : Int64} {file : Option Bytes} {lines : List DiffLine}
    {stored : Option Index} {result : Except WalkError (RootListing × Bool)}
    (hadmits : World.Admits tree) (hnul : 0 ∉ root)
    (h : CheckRoot wildmatch (hostOf tree) root opts now file result lines stored) :
    ∃ fresh differs, result = .ok (fresh, differs) ∧ (differs = true ↔ lines ≠ []) ∧
      ListsExactly wildmatch opts.exclude tree root fresh := by
  obtain ⟨walked, hwalk, hresult, -⟩ := h.exists_walkRoot hnul
  obtain ⟨listing, rfl, hlists⟩ := hwalk.listsExactly hadmits hnul
  cases result with
  | error err => cases hresult
  | ok result =>
    exact ⟨result.1, result.2, rfl, h.verdict, Except.ok.inj hresult ▸ hlists⟩

end Listings

/-! ## Repair -/

/-- The world right after a check has written its index; what was written before is forgotten. -/
def World.Checked (w : World) (index : Index) (w' : World) : Prop :=
  w' = { w with written := [] }.store (some index)

/-- **A check repairs the index, whatever the file held before.**  A check can return, with the
index written if the root is a directory; what it returns is a walk of the whole root; and once it
has written, every later run of `list_root` lists each repository once and nothing else, and every
later check finds nothing to report. -/
theorem check_root_repairs (wildmatch : Bytes → Bytes → Bool) (root : Bytes) (hnul : 0 ∉ root)
    (hlength : root.length < 2 ^ 32) (w : World) (hadmits : World.Admits w.tree)
    (opts : WalkOptions) (hcount : opts.exclude.length < 2 ^ 32)
    (hpattern : ∀ pattern ∈ opts.exclude, pattern.length < 2 ^ 32) (now : Int64) :
    (∀ t, w.tree = some t → t.IsDir [] → ∃ result lines index,
      CheckRoot wildmatch (hostOf w.tree) root opts now w.file result lines (some index)) ∧
    ∀ result lines stored,
      CheckRoot wildmatch (hostOf w.tree) root opts now w.file result lines stored →
      (∃ fresh differs, result = .ok (fresh, differs) ∧
        ListsExactly wildmatch opts.exclude w.tree root fresh) ∧
      ∀ index, stored = some index → ∀ w',
        Transition.Reachable (World.Checked w index) (World.Step wildmatch root) w' →
        ∀ opts' now' file', (file' = w'.file ∨ file' = none) →
          (∀ listed stored',
            ListRoot wildmatch (hostOf w'.tree) root opts' now' file' listed stored' →
            ∃ listing, listed = .ok listing ∧
              ListsExactly wildmatch opts'.exclude w'.tree root listing) ∧
          ∀ result' lines' stored',
            CheckRoot wildmatch (hostOf w'.tree) root opts' now' file' result' lines' stored' →
            ∃ fresh, result' = .ok (fresh, false) ∧ lines' = [] ∧
              ListsExactly wildmatch opts'.exclude w'.tree root fresh := by
  refine ⟨fun t ht hdir => ?_, fun result lines stored hcheck => ⟨?_, ?_⟩⟩
  · obtain ⟨hplain, hfits⟩ := hadmits t ht
    obtain ⟨result, lines, stored, hcheck⟩ :=
      World.exists_checkRoot wildmatch hadmits hnul opts now w.file
    obtain ⟨walked, hwalk, -, hstores⟩ := hcheck.exists_walkRoot hnul
    rw [ht] at hwalk
    obtain ⟨fresh, found, rfl, hfinds, hcomplete⟩ := hwalk.complete hplain hdir hnul
    obtain ⟨index, hstore⟩ := hfinds.exists_store hcomplete hdir hfits now
    exact ⟨result, lines, index, hstores fresh (some index) rfl (by rwa [ht])⟩
  · obtain ⟨fresh, differs, hresult, -, hlists⟩ := hcheck.listsExactly hadmits hnul
    exact ⟨fresh, differs, hresult, hlists⟩
  · rintro index rfl w' hreach opts' now' file' hfile
    have hsound : w'.Sound wildmatch root := by
      refine Transition.Reachable.invariant ?_
        (fun _ _ _ hsound hstep => hsound.step hnul hlength hstep) hreach
      rintro _ rfl
      -- To the index, the check is the first run in a world without a file.
      obtain ⟨listed, hlist⟩ := hcheck.listRoot
      have hinit : World.Initial root ⟨w.tree, none, []⟩ :=
        ⟨hadmits, by simp [World.Foreign, load], rfl⟩
      exact hinit.sound.step hnul hlength
        (.list opts now none listed (some index) hcount hpattern (.inl rfl) hlist)
    exact ⟨fun listed stored' hlist => hsound.listRoot hnul hfile hlist,
      fun result' lines' stored' hcheck' => hsound.checkRoot hnul hfile hcheck'⟩

/-- A check on the sample, with a file that is no index, leaves one that lists it. -/
theorem check_root_repairs_sample : ∃ result lines index,
    CheckRoot (fun _ _ => false) (hostOf (some plainTree)) (ascii ['/', 'r'])
      ⟨2, [], .statFirst, false⟩ 5 (some [0]) result lines (some index) ∧
    ∀ listed stored, ListRoot (fun _ _ => false) (hostOf (some plainTree)) (ascii ['/', 'r'])
      ⟨4, [], .openScan, false⟩ 9 (some index.encode) listed stored →
      ∃ listing, listed = .ok listing ∧
        ListsExactly (fun _ _ => false) [] (some plainTree) (ascii ['/', 'r']) listing := by
  obtain ⟨hexists, hall⟩ := check_root_repairs (fun _ _ => false) (ascii ['/', 'r']) (by decide)
    (by decide) ⟨some plainTree, some [0], []⟩ (flatTree_admits _ _) ⟨2, [], .statFirst, false⟩
    (by decide) (by simp) 5
  obtain ⟨result, lines, index, hcheck⟩ := hexists plainTree rfl ⟨_, _, _, _, rfl⟩
  refine ⟨result, lines, index, hcheck, fun listed stored hlist => ?_⟩
  have hstart := (hall result lines (some index) hcheck).2 index rfl _
    (Transition.Reachable.initial rfl)
  exact (hstart ⟨4, [], .openScan, false⟩ 9 (some index.encode) (.inl rfl)).1 listed stored hlist

end Scap
