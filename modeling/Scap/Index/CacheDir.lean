import Scap.Config.Roots
import Scap.Index.Check

/-!
# The cache directory

`Cache`, `path_for`, `cache_dir_from` and `fnv1a64` (`src/index.rs`): one directory holds the index
files of every root, each under a name made from a 64-bit hash of the root's path, so two roots may
share one file.

A `CacheWorld` is that directory with what every root path names.  Roots may lie within each other,
files may be lost or overwritten at any time, and a run may have read its file before other runs
replaced it.  In all of this `list_root` keeps listing what is there and `check_root` finds nothing
to report (`cache_dir_shared`).
-/

namespace Scap

/-! ## File names -/

/-- The directory index files live in, if there is one. -/
structure Cache where
  dir : Option Bytes
deriving Repr, DecidableEq

/-- `cache_dir_from`: `$XDG_CACHE_HOME/scap` if that is absolute, or `$HOME/.cache/scap`. -/
def cacheDirFrom (xdg home : Option Bytes) : Option Bytes :=
  match xdg.filter fun path => path.head? = some slash with
  | some path => some (Config.pushBytes path (ascii "scap".toList))
  | none => home.map fun path =>
    Config.pushBytes (Config.pushBytes path (ascii ".cache".toList)) (ascii "scap".toList)

/-- `fnv1a64`: FNV-1a, 64-bit. -/
def fnv1a64 (bytes : Bytes) : UInt64 :=
  bytes.foldl (fun hash byte => (hash ^^^ byte.toUInt64) * 0x100000001b3) 0xcbf29ce484222325

/-- `{:016x}`. -/
def hex16 (n : UInt64) : Bytes :=
  let digits := ascii (Nat.toDigits 16 n.toNat)
  List.replicate (16 - digits.length) 0x30 ++ digits

/-- `path_for`: the index file of a root, or `none` when there is nowhere to keep one. -/
def Cache.pathFor (cache : Cache) (root : Bytes) : Option Bytes :=
  cache.dir.map fun dir => Config.pushBytes dir
    (ascii "index-".toList ++ hex16 (fnv1a64 root) ++ ascii ".bin".toList)

/-! ## The directory and the roots -/

/-- What every root path names, and the cache directory. -/
structure CacheWorld where
  /-- What a root path names. -/
  tree : Bytes → Option Tree
  /-- What each file holds and has held, the last contents first. -/
  files : Bytes → List (Option Bytes)
  /-- Every index of a root written so far, with the tree at that moment. -/
  written : Bytes → List (Tree × Index)

/-- Other contents of the file leave a world sound, if they hold no index of this root but one of
those written. -/
lemma World.Sound.withFile {wildmatch : Bytes → Bytes → Bool} {root : Bytes} {w : World}
    (h : w.Sound wildmatch root) {file : Option Bytes}
    (hfile : ∀ index, load file = some index → index.root = root →
      ∃ before, (before, index) ∈ w.written) :
    ({ w with file := file } : World).Sound wildmatch root :=
  ⟨h.admits, h.remembers, h.evidence, hfile⟩

namespace CacheWorld

variable (wildmatch : Bytes → Bytes → Bool) (cache : Cache)

/-- A root path short enough for the file format, without NUL. -/
structure IsRoot (root : Bytes) : Prop where
  noNul : 0 ∉ root
  length_lt : root.length < 2 ^ 32

/-- What a run on a root may have read as its index file: nothing, or what the file has held. -/
def MayRead (s : CacheWorld) (root : Bytes) (file : Option Bytes) : Prop :=
  file = none ∨ ∃ path, cache.pathFor root = some path ∧ file ∈ s.files path

/-- One root and one of the contents of its file. -/
def at_ (s : CacheWorld) (root : Bytes) (file : Option Bytes) : World where
  tree := s.tree root
  file := file
  written := s.written root

/-- Stores an index of a root, if there is one to store and somewhere to store it. -/
def store (s : CacheWorld) (root : Bytes) (stored : Option Index) : CacheWorld :=
  match cache.pathFor root, stored with
  | some path, some index =>
    { tree := s.tree
      files := Function.update s.files path (some index.encode :: s.files path)
      written := Function.update s.written root
        ((s.tree root).toList.map (fun t => (t, index)) ++ s.written root) }
  | _, _ => s

/-- The roots name trees that may be walked, and no file holds an index of a root it is the file
of. -/
structure Initial (s : CacheWorld) : Prop where
  admits : ∀ root, World.Admits (s.tree root)
  foreign : ∀ root path, cache.pathFor root = some path →
    ∀ file ∈ s.files path, World.Foreign root file
  written : ∀ root, s.written root = []

/-- One step: the file system changes, an index file is lost, or a run on some root ends. -/
inductive Step : CacheWorld → CacheWorld → Prop
  /-- An arbitrary mutation, seen from every root. -/
  | mutate {s : CacheWorld} (tree : Bytes → Option Tree)
      (hadmits : ∀ root, World.Admits (tree root))
      (hevidence : ∀ root, ∀ t ∈ tree root, ∀ w ∈ s.written root, Evidence w.1 w.2 t) :
      Step s { s with tree := tree }
  /-- An index file is removed, or replaced by one that holds no index of its roots. -/
  | lose {s : CacheWorld} (path : Bytes) (file : Option Bytes)
      (hforeign : ∀ root, cache.pathFor root = some path → World.Foreign root file) :
      Step s { s with files := Function.update s.files path (file :: s.files path) }
  /-- A run of `list_root`. -/
  | list {s : CacheWorld} (root : Bytes) (opts : WalkOptions) (now : Int64) (file : Option Bytes)
      (result : Except WalkError RootListing) (stored : Option Index) (hroot : IsRoot root)
      (hcount : opts.exclude.length < 2 ^ 32)
      (hpattern : ∀ pattern ∈ opts.exclude, pattern.length < 2 ^ 32)
      (hfile : MayRead cache s root file)
      (hlist : ListRoot wildmatch (hostOf (s.tree root)) root opts now file result stored) :
      Step s (s.store cache root stored)
  /-- A run of `check_root`. -/
  | check {s : CacheWorld} (root : Bytes) (opts : WalkOptions) (now : Int64) (file : Option Bytes)
      (result : Except WalkError (RootListing × Bool)) (lines : List DiffLine)
      (stored : Option Index) (hroot : IsRoot root) (hcount : opts.exclude.length < 2 ^ 32)
      (hpattern : ∀ pattern ∈ opts.exclude, pattern.length < 2 ^ 32)
      (hfile : MayRead cache s root file)
      (hcheck : CheckRoot wildmatch (hostOf (s.tree root)) root opts now file result lines
        stored) :
      Step s (s.store cache root stored)

/-- The worlds that some sequence of steps leads to. -/
def Reachable : CacheWorld → Prop := Transition.Reachable (Initial cache) (Step wildmatch cache)

/-- Every root is sound, with each of the contents its file has had. -/
def Sound (s : CacheWorld) : Prop :=
  ∀ root, IsRoot root → ∀ file, MayRead cache s root file →
    (s.at_ root file).Sound wildmatch root

variable {wildmatch cache} {s s' : CacheWorld} {root : Bytes} {opts : WalkOptions} {now : Int64}
  {file : Option Bytes}

/-- A run may have read nothing. -/
lemma mayRead_none (s : CacheWorld) (root : Bytes) : MayRead cache s root none := .inl rfl

/-! ### What a step leaves of the files -/

/-- A file holds what it held, or what has just been written. -/
lemma mem_update_cons {files : Bytes → List (Option Bytes)} {path path' : Bytes}
    {new file : Option Bytes}
    (h : file ∈ Function.update files path (new :: files path) path') :
    file ∈ files path' ∨ path' = path ∧ file = new := by
  by_cases hsame : path' = path
  · subst hsame
    rw [Function.update_self] at h
    exact (List.mem_cons.mp h).symm.imp_right fun heq => ⟨rfl, heq⟩
  · rw [Function.update_of_ne hsame] at h
    exact .inl h

/-- Nothing is stored if there is nothing to store. -/
@[simp] lemma store_none (s : CacheWorld) (root : Bytes) : s.store cache root none = s := by
  unfold CacheWorld.store
  cases cache.pathFor root <;> rfl

/-- Nothing is stored if there is nowhere to store it. -/
lemma store_of_pathFor_eq_none (h : cache.pathFor root = none) (stored : Option Index) :
    s.store cache root stored = s := by
  unfold CacheWorld.store
  rw [h]

/-- After a run a file holds what it has held, or the index that was stored. -/
lemma MayRead.of_store {stored : Option Index} {other : Bytes}
    (h : MayRead cache (s.store cache root stored) other file) :
    MayRead cache s other file ∨ ∃ index, stored = some index ∧ file = some index.encode := by
  cases hpath : cache.pathFor root with
  | none =>
    rw [store_of_pathFor_eq_none hpath] at h
    exact .inl h
  | some path =>
    cases stored with
    | none =>
      rw [store_none] at h
      exact .inl h
    | some index =>
      rcases h with rfl | ⟨path', hpath', hmem⟩
      · exact .inl (mayRead_none s other)
      · simp only [CacheWorld.store, hpath] at hmem
        rcases mem_update_cons hmem with hold | ⟨-, rfl⟩
        · exact .inl (.inr ⟨path', hpath', hold⟩)
        · exact .inr ⟨index, rfl, rfl⟩

/-- What storing an index does. -/
lemma store_eq {path : Bytes} (hpath : cache.pathFor root = some path) (index : Index) :
    s.store cache root (some index) =
      { tree := s.tree
        files := Function.update s.files path (some index.encode :: s.files path)
        written := Function.update s.written root
          ((s.tree root).toList.map (fun t => (t, index)) ++ s.written root) } := by
  simp only [CacheWorld.store, hpath]

/-- Storing an index adds it to those written for its root. -/
lemma mem_written_store {index : Index} {other : Bytes} {w : Tree × Index}
    (h : w ∈ (s.store cache root (some index)).written other) :
    w ∈ s.written other ∨ other = root ∧ ∃ t, s.tree root = some t ∧ w = (t, index) := by
  cases hpath : cache.pathFor root with
  | none =>
    rw [store_of_pathFor_eq_none hpath] at h
    exact .inl h
  | some path =>
    rw [store_eq hpath] at h
    dsimp only at h
    rw [Function.update_apply] at h
    split_ifs at h with hsame
    · rcases List.mem_append.mp h with hnew | hold
      · obtain ⟨t, ht, rfl⟩ := List.mem_map.mp hnew
        exact .inr ⟨hsame, t, Option.mem_toList.mp ht, rfl⟩
      · exact .inl (hsame ▸ hold)
    · exact .inl h

/-- What a run may read it may still read once an index has been stored. -/
lemma MayRead.store {other : Bytes} (h : MayRead cache s other file) (index : Index) :
    MayRead cache (s.store cache root (some index)) other file := by
  cases hpath : cache.pathFor root with
  | none => rwa [store_of_pathFor_eq_none hpath]
  | some path =>
    refine h.imp_right fun ⟨path', hpath', hmem⟩ => ⟨path', hpath', ?_⟩
    rw [store_eq hpath]
    dsimp only
    rw [Function.update_apply]
    split_ifs with hsame
    · exact List.mem_cons_of_mem _ (hsame ▸ hmem)
    · exact hmem

/-- An index that has been stored may be read. -/
lemma mayRead_stored {path : Bytes} (hpath : cache.pathFor root = some path) (s : CacheWorld)
    (index : Index) : MayRead cache (s.store cache root (some index)) root (some index.encode) := by
  refine .inr ⟨path, hpath, ?_⟩
  rw [store_eq hpath]
  dsimp only
  rw [Function.update_self]
  exact List.mem_cons_self

/-- Storing changes no tree. -/
@[simp] lemma tree_store (stored : Option Index) : (s.store cache root stored).tree = s.tree := by
  unfold CacheWorld.store
  split <;> rfl

/-- Storing an index of one root leaves the others as they are. -/
lemma at_store_of_ne {stored : Option Index} {other : Bytes} (h : other ≠ root)
    (file : Option Bytes) : (s.store cache root stored).at_ other file = s.at_ other file := by
  unfold CacheWorld.store
  split
  · simp [at_, Function.update_of_ne h]
  · rfl

/-- Storing an index of a root is what it is in the world of this root. -/
lemma at_store_self {path : Bytes} {t : Tree} {index : Index}
    (hpath : cache.pathFor root = some path) (ht : s.tree root = some t)
    (file file' : Option Bytes) :
    (s.store cache root (some index)).at_ root file' =
      { (s.at_ root file).store (some index) with file := file' } := by
  simp [CacheWorld.store, hpath, at_, World.store, ht]

/-! ### Every root stays sound -/

/-- A world to start from is sound at every root. -/
lemma Initial.sound (h : Initial cache s) : s.Sound wildmatch cache := by
  intro root _ file hfile
  refine World.Initial.sound ⟨h.admits root, ?_, h.written root⟩
  rcases hfile with rfl | ⟨path, hpath, hmem⟩
  · simp [World.Foreign, load, at_]
  · exact h.foreign root path hpath file hmem

/-- What a run that stores leaves behind. -/
lemma Sound.exists_stored (h : s.Sound wildmatch cache) (hroot : IsRoot root)
    (hcount : opts.exclude.length < 2 ^ 32)
    (hpattern : ∀ pattern ∈ opts.exclude, pattern.length < 2 ^ 32)
    (hfile : MayRead cache s root file) {result : Except WalkError RootListing} {index : Index}
    (hlist : ListRoot wildmatch (hostOf (s.tree root)) root opts now file result (some index)) :
    ∃ t, s.tree root = some t ∧ load (some index.encode) = some index ∧ index.root = root ∧
      ((s.at_ root file).store (some index)).Sound wildmatch root := by
  have hstored := (h root hroot file hfile).step hroot.noNul hroot.length_lt
    (.list opts now file result (some index) hcount hpattern (.inl rfl) hlist)
  rcases hostOf_cases (s.tree root) with ⟨t, ht, -⟩ | ⟨hwalkable, hopen⟩
  · have hremembers : index.Remembers wildmatch root t :=
      hstored.remembers (t, index) (by simp [World.store, at_, ht])
    refine ⟨t, ht, ?_, hremembers.root_eq, hstored⟩
    rw [load, Option.bind_some, hremembers.wellFormed.decode_encode]
  · exact absurd (hlist.of_not_walkable hwalkable hopen hroot.noNul).2 (by simp)

/-- A run that stores the index of one root keeps every root sound, also one whose index goes to the
same file. -/
lemma Sound.store (h : s.Sound wildmatch cache) (hroot : IsRoot root)
    (hcount : opts.exclude.length < 2 ^ 32)
    (hpattern : ∀ pattern ∈ opts.exclude, pattern.length < 2 ^ 32)
    (hfile : MayRead cache s root file) {result : Except WalkError RootListing}
    {stored : Option Index}
    (hlist : ListRoot wildmatch (hostOf (s.tree root)) root opts now file result stored) :
    (s.store cache root stored).Sound wildmatch cache := by
  cases stored with
  | none => rwa [store_none]
  | some index =>
    obtain ⟨t, ht, hload, hindex, hstored⟩ := h.exists_stored hroot hcount hpattern hfile hlist
    intro other hother file' hfile'
    have hcases := hfile'.of_store
    by_cases hsame : other = root
    · subst hsame
      rcases hpath : cache.pathFor other with _ | path
      · rw [store_of_pathFor_eq_none hpath] at hfile' ⊢
        exact h other hother file' hfile'
      · rw [at_store_self hpath ht file file']
        refine hstored.withFile fun index' hload' hroot' => ?_
        rcases hcases with hold | ⟨index'', heq, rfl⟩
        · obtain ⟨before, hbefore⟩ := (h other hother file' hold).file index' hload' hroot'
          exact ⟨before, by simp [World.store, at_, ht, show (before, index') ∈ s.written other from
            hbefore]⟩
        · obtain rfl := Option.some.inj heq
          obtain rfl := Option.some.inj (hload.symm.trans hload')
          exact ⟨t, by simp [World.store, at_, ht]⟩
    · rw [at_store_of_ne hsame]
      rcases hcases with hold | ⟨index'', heq, rfl⟩
      · exact h other hother file' hold
      · -- The two roots share the file, which repeats the path of the root it is of.
        obtain rfl := Option.some.inj heq
        refine (h other hother none (mayRead_none s other)).withFile fun index' hload' hroot' => ?_
        obtain rfl := Option.some.inj (hload.symm.trans hload')
        exact absurd (hroot'.symm.trans hindex) hsame

/-- Every step keeps every root sound. -/
lemma Sound.step (h : s.Sound wildmatch cache) (hstep : Step wildmatch cache s s') :
    s'.Sound wildmatch cache := by
  cases hstep with
  | mutate tree hadmits hevidence =>
    intro root hroot file hfile
    exact (h root hroot file hfile).step hroot.noNul hroot.length_lt
      (.mutate (tree root) (hadmits root) (hevidence root))
  | lose path file hforeign =>
    intro root hroot file' hfile'
    rcases hfile' with rfl | ⟨path', hpath', hmem⟩
    · exact h root hroot none (mayRead_none s root)
    · rcases mem_update_cons hmem with hold | ⟨rfl, rfl⟩
      · exact h root hroot file' (.inr ⟨path', hpath', hold⟩)
      · exact (h root hroot none (mayRead_none s root)).withFile fun index hload hindex =>
          absurd hindex (hforeign root hpath' index hload)
  | list root opts now file result stored hroot hcount hpattern hfile hlist =>
    exact h.store hroot hcount hpattern hfile hlist
  | check root opts now file result lines stored hroot hcount hpattern hfile hcheck =>
    cases stored with
    | none => rwa [store_none]
    | some index =>
      obtain ⟨listed, hlist⟩ := hcheck.listRoot
      exact h.store hroot hcount hpattern (mayRead_none s root) hlist

/-- Every world a run reaches is sound. -/
lemma Reachable.sound (h : s.Reachable wildmatch cache) : s.Sound wildmatch cache :=
  Transition.Reachable.invariant (fun _ hinit => hinit.sound)
    (fun _ _ _ hsound hstep => hsound.step hstep) h

/-- In every reachable world a run on a directory can store an index of what is there. -/
lemma Reachable.exists_stored (h : s.Reachable wildmatch cache) (hroot : IsRoot root) {t : Tree}
    (ht : s.tree root = some t) (hdir : t.IsDir []) (opts : WalkOptions)
    (hcount : opts.exclude.length < 2 ^ 32)
    (hpattern : ∀ pattern ∈ opts.exclude, pattern.length < 2 ^ 32) (now : Int64) :
    ∃ index, (s.store cache root (some index)).Reachable wildmatch cache ∧
      index.Remembers wildmatch root t := by
  obtain ⟨hplain, hfits⟩ := (h.sound root hroot none (mayRead_none s root)).admits t ht
  obtain ⟨result, index, hlist, hremembers⟩ := ListRoot.exists_stored hplain hdir hfits hroot.noNul
    hroot.length_lt opts hcount hpattern now
  exact ⟨index, h.tail (.list root opts now none result (some index) hroot hcount hpattern
    (mayRead_none s root) (by rwa [ht])), hremembers⟩

end CacheWorld

/-- Any number of roots may share one cache directory, and two roots one file: in every world that
mutations, losses of files and runs on any of the roots lead to, `list_root` and `check_root` can
return, even from contents that were replaced in the meantime; what they return lists each
repository of the root once and nothing else, and the check reports nothing. -/
theorem cache_dir_shared (wildmatch : Bytes → Bytes → Bool) (cache : Cache) (s : CacheWorld)
    (hs : s.Reachable wildmatch cache) (root : Bytes) (hroot : CacheWorld.IsRoot root)
    (opts : WalkOptions) (now : Int64) (file : Option Bytes)
    (hfile : CacheWorld.MayRead cache s root file) :
    (∃ result stored, ListRoot wildmatch (hostOf (s.tree root)) root opts now file result stored) ∧
    (∃ result lines stored,
      CheckRoot wildmatch (hostOf (s.tree root)) root opts now file result lines stored) ∧
    (∀ result stored,
      ListRoot wildmatch (hostOf (s.tree root)) root opts now file result stored →
      ∃ listing, result = .ok listing ∧
        ListsExactly wildmatch opts.exclude (s.tree root) root listing) ∧
    ∀ result lines stored,
      CheckRoot wildmatch (hostOf (s.tree root)) root opts now file result lines stored →
      ∃ fresh, result = .ok (fresh, false) ∧ lines = [] ∧
        ListsExactly wildmatch opts.exclude (s.tree root) root fresh := by
  have hsound := hs.sound root hroot file hfile
  exact ⟨World.exists_listRoot wildmatch hsound.admits hroot.noNul opts now file,
    World.exists_checkRoot wildmatch hsound.admits hroot.noNul opts now file,
    fun result stored hlist => hsound.listRoot hroot.noNul (.inl rfl) hlist,
    fun result lines stored hcheck => hsound.checkRoot hroot.noNul (.inl rfl) hcheck⟩

/-- Two roots with a bare repository each, and a cache directory that holds nothing. -/
def sampleCacheWorld : CacheWorld where
  tree root := if root = ascii ['/', 'r'] ∨ root = ascii ['/', 'q'] then some plainTree else none
  files _ := []
  written _ := []

/-- The cache directory of the sample. -/
def sampleCache : Cache := ⟨some (ascii ['/', 'c'])⟩

/-- The sample is a world to start from. -/
lemma sampleCacheWorld_initial (cache : Cache) : CacheWorld.Initial cache sampleCacheWorld where
  admits root t ht := by
    unfold sampleCacheWorld at ht
    dsimp only at ht
    split_ifs at ht
    · exact flatTree_admits _ _ t ht
    · cases ht
  foreign _ _ _ _ hfile := absurd hfile List.not_mem_nil
  written _ := rfl

/-- What the roots name once a repository has been cloned into the first. -/
def grownTrees (root : Bytes) : Option Tree :=
  if root = ascii ['/', 'r'] then some grownTree else sampleCacheWorld.tree root

/-- Runs on both roots have stored an index, and another repository has come to the first since. -/
lemma exists_grown_cacheWorld : ∃ (s : CacheWorld) (index index' : Index),
    s.Reachable (fun _ _ => false) sampleCache ∧ s.tree = grownTrees ∧
      CacheWorld.MayRead sampleCache s (ascii ['/', 'r']) (some index.encode) ∧
      CacheWorld.MayRead sampleCache s (ascii ['/', 'q']) (some index'.encode) := by
  have hinitial : sampleCacheWorld.Reachable (fun _ _ => false) sampleCache :=
    Transition.Reachable.initial (sampleCacheWorld_initial _)
  obtain ⟨path, hpath⟩ : ∃ path, sampleCache.pathFor (ascii ['/', 'r']) = some path := ⟨_, rfl⟩
  obtain ⟨path', hpath'⟩ : ∃ path, sampleCache.pathFor (ascii ['/', 'q']) = some path := ⟨_, rfl⟩
  have hroot : sampleCacheWorld.tree (ascii ['/', 'r']) = some plainTree := by rfl
  have hroot' : sampleCacheWorld.tree (ascii ['/', 'q']) = some plainTree := by rfl
  obtain ⟨index, hfirst, hremembers⟩ := hinitial.exists_stored ⟨by decide, by decide⟩ hroot
    (flatTree_isDir ..) ⟨2, [], .statFirst, false⟩ (by decide) (by simp) 5
  rw [← CacheWorld.tree_store (some index)] at hroot'
  obtain ⟨index', hsecond, -⟩ := hfirst.exists_stored ⟨by decide, by decide⟩ hroot'
    (flatTree_isDir ..) ⟨2, [], .statFirst, false⟩ (by decide) (by simp) 5
  refine ⟨_, index, index', hsecond.tail (.mutate grownTrees (fun root t ht => ?_)
    fun root t ht w hw => ?_), rfl, ?_, ?_⟩
  · unfold grownTrees at ht
    split_ifs at ht
    · exact flatTree_admits _ _ t ht
    · exact (sampleCacheWorld_initial sampleCache).admits root t ht
  · -- The index of the first root is older than the clone; that of the second is up to date.
    rcases CacheWorld.mem_written_store hw with hw | ⟨rfl, before, hbefore, rfl⟩
    · rcases CacheWorld.mem_written_store hw with hw | ⟨rfl, before, hbefore, rfl⟩
      · exact absurd hw List.not_mem_nil
      · obtain rfl := Option.some.inj (hroot.symm.trans hbefore)
        obtain rfl : grownTree = t := Option.some.inj ht
        exact flatTree_evidence _ _ hremembers _ (by decide)
    · obtain rfl := Option.some.inj (hroot'.symm.trans hbefore)
      obtain rfl : plainTree = t := Option.some.inj ht
      exact Evidence.refl _ _
  · exact (CacheWorld.mayRead_stored hpath _ index).store index'
  · exact CacheWorld.mayRead_stored hpath' _ index'

/-- A run on the first root lists what has come, and a check of the second finds nothing to
report. -/
theorem cache_dir_shared_sample : ∃ (s : CacheWorld) (index index' : Index),
    s.Reachable (fun _ _ => false) sampleCache ∧ s.tree = grownTrees ∧
    (∃ listing stored, ListRoot (fun _ _ => false) (hostOf (some grownTree)) (ascii ['/', 'r'])
        ⟨2, [], .statFirst, false⟩ 9 (some index.encode) (.ok listing) stored ∧
      ListsExactly (fun _ _ => false) [] (some grownTree) (ascii ['/', 'r']) listing) ∧
    ∃ fresh stored, CheckRoot (fun _ _ => false) (hostOf (some plainTree)) (ascii ['/', 'q'])
        ⟨2, [], .statFirst, false⟩ 9 (some index'.encode) (.ok (fresh, false)) [] stored ∧
      ListsExactly (fun _ _ => false) [] (some plainTree) (ascii ['/', 'q']) fresh := by
  obtain ⟨s, index, index', hreach, htree, hfile, hfile'⟩ := exists_grown_cacheWorld
  obtain ⟨⟨listed, stored, hlist⟩, -, hlists, -⟩ := cache_dir_shared (fun _ _ => false) sampleCache
    s hreach (ascii ['/', 'r']) ⟨by decide, by decide⟩ ⟨2, [], .statFirst, false⟩ 9 _ hfile
  obtain ⟨-, ⟨result, lines, stored', hcheck⟩, -, hchecks⟩ := cache_dir_shared (fun _ _ => false)
    sampleCache s hreach (ascii ['/', 'q']) ⟨by decide, by decide⟩ ⟨2, [], .statFirst, false⟩ 9 _
    hfile'
  obtain ⟨listing, rfl, hexact⟩ := hlists listed stored hlist
  obtain ⟨fresh, rfl, rfl, hexact'⟩ := hchecks result lines stored' hcheck
  rw [htree] at hlist hexact hcheck hexact'
  exact ⟨s, index, index', hreach, htree, ⟨listing, stored, hlist, hexact⟩, fresh, stored', hcheck,
    hexact'⟩

end Scap
