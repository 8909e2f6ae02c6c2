import Mathlib.Data.Finset.Card
import Mathlib.Data.List.Infix
import Scap.Foundations.Utf8
import Scap.Listing.Naming
import Scap.Text

/-!
# Filtering, and unique names

`filter_repos`, `subpaths` and `format_unique` (`src/cmd/list.rs`).  A repository is looked up by
any tail of its path that starts on a component boundary, and `--unique` prints the shortest such
tail that no other path has.

`format_unique` counts in one pass and prints in another.  `countRepos_eq` says what is counted: how
often a path occurs, and how many different paths have a tail.  What is printed then leads back to
exactly one path (`uniqueLine_filterRepos`), and a path with a tail of its own is printed unless it
occurs more than once and the primary root names none of its copies (`shown_iff`).
-/

namespace Scap.Listing

/-! ## Tails -/

/-- `subpaths`: every tail that starts on a component boundary, shortest first. -/
def subpaths (rel : Bytes) : List Bytes :=
  (((List.range rel.length).filter fun i => rel[i]? = some slash).reverse.map fun i =>
    rel.drop (i + 1)) ++ [rel]

/-- The components of `p` are the last components of `rel`. -/
def IsTail (p rel : Bytes) : Prop := p.splitOn slash <:+ rel.splitOn slash

instance (p rel : Bytes) : Decidable (IsTail p rel) :=
  inferInstanceAs (Decidable (p.splitOn slash <:+ rel.splitOn slash))

/-- A path ends in itself. -/
lemma isTail_refl (rel : Bytes) : IsTail rel rel := List.suffix_refl _

/-- A tail is the whole path, or follows a separator. -/
lemma isTail_iff {p rel : Bytes} : IsTail p rel ↔ rel = p ∨ ∃ init, rel = init ++ slash :: p := by
  constructor
  · rintro ⟨init, hinit⟩
    have hjoin : rel = [slash].intercalate (init ++ p.splitOn slash) := by
      rw [hinit, List.intercalate_splitOn]
    rcases eq_or_ne init [] with rfl | hne
    · rw [List.nil_append, List.intercalate_splitOn] at hjoin
      exact .inl hjoin
    · have happend := relative_append hne (List.splitOn_ne_nil slash p)
      rw [relative, relative, relative, List.intercalate_splitOn] at happend
      exact .inr ⟨_, hjoin.trans happend⟩
  · rintro (rfl | ⟨init, rfl⟩)
    · exact isTail_refl rel
    · rw [IsTail, List.splitOn_append_cons_self]
      exact List.suffix_append ..

/-- The subpaths of a path are those it ends in. -/
lemma mem_subpaths_iff {p rel : Bytes} : p ∈ subpaths rel ↔ IsTail p rel := by
  rw [isTail_iff, subpaths, List.mem_append, List.mem_singleton, List.mem_map, or_comm, eq_comm]
  refine or_congr_right ⟨?_, ?_⟩
  · rintro ⟨i, hi, rfl⟩
    have hget : rel[i]? = some slash := by
      simpa using (List.mem_filter.mp (List.mem_reverse.mp hi)).2
    obtain ⟨hlt, hslash⟩ := List.getElem?_eq_some_iff.mp hget
    refine ⟨rel.take i, ?_⟩
    rw [← hslash, ← List.drop_eq_getElem_cons hlt, List.take_append_drop]
  · rintro ⟨init, rfl⟩
    refine ⟨init.length, ?_, by simp [List.drop_append]⟩
    rw [List.mem_reverse, List.mem_filter, List.mem_range]
    simp

/-- Shortest first. -/
lemma pairwise_subpaths (rel : Bytes) : (subpaths rel).Pairwise fun p q => p.length < q.length := by
  refine List.pairwise_append.mpr ⟨?_, List.pairwise_singleton .., fun p hp q hq => ?_⟩
  · have hsorted : ((List.range rel.length).filter fun i => rel[i]? = some slash).Pairwise
        (· < ·) := List.pairwise_lt_range.filter _
    rw [List.pairwise_map, List.pairwise_reverse]
    refine hsorted.imp_of_mem fun {i j} hi hj hlt => ?_
    have := List.mem_range.mp (List.mem_of_mem_filter hj)
    rw [List.length_drop, List.length_drop]
    omega
  · obtain ⟨i, hi, rfl⟩ := List.mem_map.mp hp
    have := List.mem_range.mp (List.mem_of_mem_filter (List.mem_reverse.mp hi))
    rw [List.mem_singleton.mp hq, List.length_drop]
    omega

/-! ## Filtering -/

/-- The arguments that `filter_repos` reads. -/
structure ListArgs where
  exact : Bool
  query : Option Str
deriving Repr, DecidableEq

/-- `non_host_path`. -/
def nonHostPath (rel : Bytes) : Bytes :=
  match splitFirst slash rel with
  | some (_, rest) => rest
  | none => []

/-- `host_component`. -/
def hostComponent (rel : Bytes) : Bytes :=
  match splitFirst slash rel with
  | some (host, _) => host
  | none => rel

/-- `looks_like_authority`. -/
def looksLikeAuthority (s : Str) : Bool := s.contains '.' && !s.contains ' '

/-- `split_authority_prefix`. -/
def splitAuthorityPrefix (query : Str) : Option Str × Str :=
  match splitFirst '/' query with
  | some (head, tail) => if looksLikeAuthority head then (some head, tail) else (none, query)
  | none => (none, query)

/-- `u8::to_ascii_lowercase`. -/
def asciiLowercase (b : UInt8) : UInt8 := if 0x41 ≤ b ∧ b ≤ 0x5a then b + 0x20 else b

section Filter

variable (toLowercase : Str → Str)

/-- `lowercase`; `toLowercase` is `str::to_lowercase`. -/
def lowercase (hay : Bytes) : Bytes :=
  match fromUtf8 hay with
  | some s => if s.all (·.toNat < 128) then hay.map asciiLowercase else toBytes (toLowercase s)
  | none => hay.map asciiLowercase

/-- Whether a repository answers a query that need not be exact. -/
def matchesQuery (query : Str) (r : Repo) : Bool :=
  let (hostFilter, q) := splitAuthorityPrefix query
  let lower := toLowercase q
  let smartCase : Bool := q = lower
  let needle := if smartCase then toBytes lower else toBytes q
  if hostFilter.any fun host => hostComponent r.rel ≠ toBytes host then false
  else
    let hay := nonHostPath r.rel
    if !smartCase then needle <:+: hay else needle <:+: lowercase toLowercase hay

/-- `filter_repos`. -/
def filterRepos (repos : List Repo) (args : ListArgs) : List Repo :=
  match args.query with
  | none => repos
  | some query =>
    if args.exact then repos.filter fun r => (subpaths r.rel).any fun p => p = toBytes query
    else repos.filter (matchesQuery toLowercase query)

end Filter

/-! ## Unique names -/

/-- `*counts.entry(key).or_insert(0) += 1`. -/
def bump (counts : Bytes → ℕ) (key : Bytes) : Bytes → ℕ :=
  Function.update counts key (counts key + 1)

/-- The maps of `format_unique`; what is not in a map counts zero. -/
structure Counts where
  subpath : Bytes → ℕ
  repos : Bytes → ℕ

/-- One turn of the counting loop: the tails of a path count when it is met for the first time. -/
def countRepo (counts : Counts) (r : Repo) : Counts where
  subpath := if counts.repos r.rel = 0 then (subpaths r.rel).foldl bump counts.subpath
    else counts.subpath
  repos := bump counts.repos r.rel

/-- The counting loop. -/
def countRepos (repos : List Repo) : Counts := repos.foldl countRepo ⟨fun _ => 0, fun _ => 0⟩

/-- One turn of the printing loop: the line of a repository, if it has one. -/
def uniqueLine (counts : Counts) (r : Repo) : Option Bytes :=
  if counts.repos r.rel > 1 ∧ r.underPrimary = false then none
  else (subpaths r.rel).find? fun p => counts.subpath p = 1

/-- `format_unique`. -/
def formatUnique (repos : List Repo) : List Bytes := repos.filterMap (uniqueLine (countRepos repos))

/-! ## What is counted -/

/-- A key is counted as often as it occurs. -/
lemma foldl_bump (keys : List Bytes) (counts : Bytes → ℕ) (key : Bytes) :
    keys.foldl bump counts key = counts key + keys.count key := by
  induction keys generalizing counts with
  | nil => rfl
  | cons k keys ih =>
    rw [List.foldl_cons, ih, bump, List.count_cons]
    by_cases hk : key = k
    · subst hk
      rw [Function.update_self, beq_self_eq_true, if_pos rfl]
      omega
    · rw [Function.update_of_ne hk, if_neg (by simpa using Ne.symm hk), Nat.add_zero]

/-- The different paths of a list that have a tail. -/
def holders (repos : List Repo) (p : Bytes) : Finset Bytes :=
  (repos.map Repo.rel).toFinset.filter fun rel => IsTail p rel

/-- The holders of a subpath are the repositories that end in it. -/
lemma mem_holders {repos : List Repo} {p rel : Bytes} :
    rel ∈ holders repos p ↔ (∃ r ∈ repos, r.rel = rel) ∧ IsTail p rel := by
  simp [holders]

/-- The loop counts how often each path occurs and how many different paths have each tail. -/
lemma countRepos_eq (repos : List Repo) :
    (countRepos repos).repos = (fun rel => (repos.map Repo.rel).count rel) ∧
      (countRepos repos).subpath = fun p => (holders repos p).card := by
  induction repos using List.reverseRecOn with
  | nil => exact ⟨rfl, rfl⟩
  | append_singleton repos r ih =>
    obtain ⟨hrepos, hsubpath⟩ := ih
    have hstep : countRepos (repos ++ [r]) = countRepo (countRepos repos) r := by
      rw [countRepos, List.foldl_append]
      rfl
    rw [hstep]
    constructor
    · funext rel
      show bump (countRepos repos).repos r.rel rel = _
      have := foldl_bump [r.rel] (countRepos repos).repos rel
      rw [List.foldl_cons, List.foldl_nil, hrepos] at this
      rw [hrepos, this, List.map_append, List.count_append]
      rfl
    · funext p
      show (if (countRepos repos).repos r.rel = 0 then
          (subpaths r.rel).foldl bump (countRepos repos).subpath
        else (countRepos repos).subpath) p = _
      have hfinset : ((repos ++ [r]).map Repo.rel).toFinset =
          insert r.rel (repos.map Repo.rel).toFinset := by
        ext rel
        simp
      have hzero : (countRepos repos).repos r.rel = 0 ↔ r.rel ∉ repos.map Repo.rel := by
        rw [hrepos, List.count_eq_zero]
      rw [holders, hfinset]
      by_cases hmet : r.rel ∈ repos.map Repo.rel
      · rw [if_neg (mt hzero.mp (not_not.mpr hmet)), hsubpath,
          Finset.insert_eq_of_mem (List.mem_toFinset.mpr hmet)]
        rfl
      · rw [if_pos (hzero.mpr hmet), foldl_bump, hsubpath, Finset.filter_insert]
        -- A path has each of its tails once.
        have hnodup : (subpaths r.rel).Nodup :=
          (pairwise_subpaths r.rel).imp fun hlt heq => absurd (congrArg List.length heq) hlt.ne
        have hfresh : r.rel ∉ (repos.map Repo.rel).toFinset.filter fun rel => IsTail p rel :=
          fun hmem => hmet (List.mem_toFinset.mp (Finset.mem_of_mem_filter _ hmem))
        rw [hnodup.count]
        by_cases htail : IsTail p r.rel
        · rw [if_pos (mem_subpaths_iff.mpr htail), if_pos htail,
            Finset.card_insert_of_notMem hfresh]
          rfl
        · rw [if_neg (mt mem_subpaths_iff.mp htail), if_neg htail]
          rfl

/-! ## What is printed -/

/-- A tail of a path that no other path of the list has. -/
structure OwnTail (repos : List Repo) (p rel : Bytes) : Prop where
  tail : IsTail p rel
  own : ∀ s ∈ repos, IsTail p s.rel → s.rel = rel

/-- A tail that counts one is its path's own. -/
lemma subpath_eq_one_iff {repos : List Repo} {r : Repo} (hr : r ∈ repos) {p : Bytes}
    (htail : IsTail p r.rel) :
    (countRepos repos).subpath p = 1 ↔ OwnTail repos p r.rel := by
  have hself : r.rel ∈ holders repos p := mem_holders.mpr ⟨⟨r, hr, rfl⟩, htail⟩
  rw [(countRepos_eq repos).2, Finset.card_eq_one]
  constructor
  · rintro ⟨rel, hrel⟩
    rw [hrel, Finset.mem_singleton] at hself
    refine ⟨htail, fun s hs hstail => ?_⟩
    have hmem : s.rel ∈ holders repos p := mem_holders.mpr ⟨⟨s, hs, rfl⟩, hstail⟩
    rw [hrel, Finset.mem_singleton] at hmem
    exact hmem.trans hself.symm
  · intro h
    refine ⟨r.rel, Finset.eq_singleton_iff_unique_mem.mpr ⟨hself, fun rel hrel => ?_⟩⟩
    obtain ⟨⟨s, hs, rfl⟩, hstail⟩ := mem_holders.mp hrel
    exact h.own s hs hstail

/-- A repository is skipped if its path occurs more than once and the primary root does not name
it. -/
def Skipped (repos : List Repo) (r : Repo) : Prop :=
  1 < (repos.map Repo.rel).count r.rel ∧ r.underPrimary = false

/-- The line of a repository is its shortest own tail. -/
lemma uniqueLine_eq_some_iff {repos : List Repo} {r : Repo} (hr : r ∈ repos) {p : Bytes} :
    uniqueLine (countRepos repos) r = some p ↔ ¬Skipped repos r ∧ OwnTail repos p r.rel ∧
      ∀ q, OwnTail repos q r.rel → p.length ≤ q.length := by
  have hskipped :
      (countRepos repos).repos r.rel > 1 ∧ r.underPrimary = false ↔ Skipped repos r := by
    rw [(countRepos_eq repos).1]
    rfl
  have hown : ∀ q ∈ subpaths r.rel,
      (decide ((countRepos repos).subpath q = 1) = true ↔ OwnTail repos q r.rel) := fun q hq => by
    rw [decide_eq_true_iff, subpath_eq_one_iff hr (mem_subpaths_iff.mp hq)]
  unfold uniqueLine
  by_cases hskip : Skipped repos r
  · rw [if_pos (hskipped.mpr hskip)]
    simp [hskip]
  · rw [if_neg (mt hskipped.mp hskip), and_iff_right hskip, List.find?_eq_some_iff_append]
    constructor
    · rintro ⟨hp, before, after, hsplit, hbefore⟩
      have hmem : p ∈ subpaths r.rel := by simp [hsplit]
      refine ⟨(hown p hmem).mp hp, fun q hq => ?_⟩
      have hqmem := mem_subpaths_iff.mpr hq.tail
      have hsorted := pairwise_subpaths r.rel
      rw [hsplit] at hqmem hsorted
      rcases List.mem_append.mp hqmem with hqbefore | hqafter
      · have hnot := hbefore q hqbefore
        rw [(hown q (by simp [hsplit, hqbefore])).mpr hq] at hnot
        cases hnot
      · rcases List.mem_cons.mp hqafter with rfl | hqafter
        · exact le_rfl
        · exact ((List.pairwise_cons.mp (List.pairwise_append.mp hsorted).2.1).1 q hqafter).le
    · rintro ⟨hp, hshortest⟩
      have hmem := mem_subpaths_iff.mpr hp.tail
      obtain ⟨before, after, hsplit⟩ := List.append_of_mem hmem
      refine ⟨(hown p hmem).mpr hp, before, after, hsplit, fun q hq => ?_⟩
      have hqmem : q ∈ subpaths r.rel := by simp [hsplit, hq]
      have hsorted := pairwise_subpaths r.rel
      rw [hsplit] at hsorted
      have hlt := (List.pairwise_append.mp hsorted).2.2 q hq p List.mem_cons_self
      rw [Bool.not_eq_true', Bool.eq_false_iff, Ne, hown q hqmem]
      exact fun hqown => absurd (hshortest q hqown) (by omega)

/-- What is printed for a repository is the shortest tail that no other path has, so an exact query
for it finds the repositories with this path and no others, and no other path prints it. -/
theorem uniqueLine_filterRepos (toLowercase : Str → Str) {repos : List Repo} {r : Repo}
    (hr : r ∈ repos) {p : Bytes} (hline : uniqueLine (countRepos repos) r = some p) :
    OwnTail repos p r.rel ∧ (∀ q, OwnTail repos q r.rel → p.length ≤ q.length) ∧
      (∀ query, toBytes query = p → filterRepos toLowercase repos ⟨true, some query⟩ =
        repos.filter fun s => s.rel = r.rel) ∧
      ∀ s ∈ repos, uniqueLine (countRepos repos) s = some p → s.rel = r.rel := by
  obtain ⟨-, hown, hshortest⟩ := (uniqueLine_eq_some_iff hr).mp hline
  refine ⟨hown, hshortest, fun query hquery => ?_, fun s hs hsame => ?_⟩
  · refine List.filter_congr fun s hs => ?_
    have hany : (subpaths s.rel).any (fun q => q = toBytes query) = true ↔ s.rel = r.rel := by
      rw [List.any_eq_true, hquery]
      simp only [decide_eq_true_eq, exists_eq_right, mem_subpaths_iff]
      exact ⟨hown.own s hs, fun heq => heq ▸ hown.tail⟩
    rw [Bool.eq_iff_iff, hany, decide_eq_true_iff]
  · exact hown.own s hs ((uniqueLine_eq_some_iff hs).mp hsame).2.1.tail

/-- Two repositories that share a name, and one that does not share its own. -/
def sharedNames : List Repo :=
  [⟨ascii ['/', 'r', '/', 'a', '/', 'x'], ascii ['a', '/', 'x'], true⟩,
    ⟨ascii ['/', 'r', '/', 'b', '/', 'x'], ascii ['b', '/', 'x'], true⟩,
    ⟨ascii ['/', 'r', '/', 'a', '/', 'y'], ascii ['a', '/', 'y'], true⟩]

/-- Of three repositories two share a last name and are told apart by their parents. -/
theorem uniqueLine_filterRepos_sample :
    formatUnique sharedNames = [ascii ['a', '/', 'x'], ascii ['b', '/', 'x'], ascii ['y']] ∧
      filterRepos id sharedNames ⟨true, some ['y']⟩ =
        sharedNames.filter fun s => s.rel = ascii ['a', '/', 'y'] := by
  refine ⟨by decide, ?_⟩
  have hmem : (⟨ascii ['/', 'r', '/', 'a', '/', 'y'], ascii ['a', '/', 'y'], true⟩ : Repo) ∈
      sharedNames := by decide
  have hline : uniqueLine (countRepos sharedNames)
      ⟨ascii ['/', 'r', '/', 'a', '/', 'y'], ascii ['a', '/', 'y'], true⟩ = some (ascii ['y']) := by
    decide
  exact (uniqueLine_filterRepos id hmem hline).2.2.1 ['y'] (by decide)

/-! ## What is not printed -/

/-- The path is printed, as a tail of its own. -/
def Shown (repos : List Repo) (rel : Bytes) : Prop :=
  ∃ p ∈ formatUnique repos, OwnTail repos p rel

/-- A path with a tail of its own is printed if and only if it occurs only once or the primary root
names one of its copies. -/
theorem shown_iff {repos : List Repo} {rel : Bytes} (hrel : ∃ r ∈ repos, r.rel = rel)
    (hown : ∃ p, OwnTail repos p rel) :
    Shown repos rel ↔ (repos.map Repo.rel).count rel = 1 ∨
      ∃ r ∈ repos, r.rel = rel ∧ r.underPrimary = true := by
  -- The shortest of its own tails is the line of each copy that is not skipped.
  obtain ⟨p, hp, hshortest⟩ : ∃ p, OwnTail repos p rel ∧
      ∀ q, OwnTail repos q rel → p.length ≤ q.length := by
    obtain ⟨p, hp⟩ := hown
    obtain ⟨p, hp, hmin⟩ := (measure List.length).wf.has_min {p | OwnTail repos p rel} ⟨p, hp⟩
    exact ⟨p, hp, fun q hq => Nat.le_of_not_lt (hmin q hq)⟩
  have hskipped : Shown repos rel ↔ ∃ r ∈ repos, r.rel = rel ∧ ¬Skipped repos r := by
    constructor
    · rintro ⟨q, hq, hqown⟩
      obtain ⟨r, hr, hline⟩ := List.mem_filterMap.mp hq
      obtain ⟨hnot, hrown, -⟩ := (uniqueLine_eq_some_iff hr).mp hline
      exact ⟨r, hr, hqown.own r hr hrown.tail, hnot⟩
    · rintro ⟨r, hr, rfl, hnot⟩
      exact ⟨p, List.mem_filterMap.mpr ⟨r, hr, (uniqueLine_eq_some_iff hr).mpr
        ⟨hnot, hp, hshortest⟩⟩, hp⟩
  obtain ⟨r, hr, rfl⟩ := hrel
  have hpos : 0 < (repos.map Repo.rel).count r.rel :=
    List.count_pos_iff.mpr (List.mem_map_of_mem hr)
  rw [hskipped]
  constructor
  · rintro ⟨s, hs, hsame, hnot⟩
    rw [Skipped, hsame, not_and_or, Bool.not_eq_false] at hnot
    rcases hnot with hcount | hprimary
    · exact .inl (by omega)
    · exact .inr ⟨s, hs, hsame, hprimary⟩
  · rintro (hcount | ⟨s, hs, hsame, hprimary⟩)
    · exact ⟨r, hr, rfl, fun h => absurd h.1 (by omega)⟩
    · exact ⟨s, hs, hsame, fun h => absurd hprimary (by simp [h.2])⟩

/-- A path that two roots hold, one of them the primary one, a path of its own, and a path that two
other roots hold. -/
def copiedNames : List Repo :=
  [⟨ascii ['/', 'p', '/', 'x'], ascii ['x'], true⟩,
    ⟨ascii ['/', 'a', '/', 'x'], ascii ['x'], false⟩,
    ⟨ascii ['/', 'a', '/', 'y'], ascii ['y'], false⟩,
    ⟨ascii ['/', 'a', '/', 'z'], ascii ['z'], false⟩,
    ⟨ascii ['/', 'b', '/', 'z'], ascii ['z'], false⟩]

/-- The first two of these are printed, and the third is not. -/
theorem shown_iff_sample : Shown copiedNames (ascii ['x']) ∧ Shown copiedNames (ascii ['y']) ∧
    ¬Shown copiedNames (ascii ['z']) := by
  refine ⟨?_, ?_, fun hz => ?_⟩
  · exact (shown_iff (by decide) ⟨ascii ['x'], by decide, by decide⟩).mpr (.inr (by decide))
  · exact (shown_iff (by decide) ⟨ascii ['y'], by decide, by decide⟩).mpr (.inl (by decide))
  · rcases (shown_iff (by decide) ⟨ascii ['z'], by decide, by decide⟩).mp hz with hone | hprimary
    · exact absurd hone (by decide)
    · exact absurd hprimary (by decide)

/-- Three roots, of which all but the primary one hold a repository `x`. -/
def threeRoots : List Bytes := [ascii ['/', 'p'], ascii ['/', 'a'], ascii ['/', 'b']]

/-- What the walks of the three roots find. -/
def threeListings : List RootListing :=
  [{}, { arena := [ascii ['x']] }, { arena := [ascii ['x']] }]

/-- Neither copy of `x` is printed, although no other path is there at all. -/
theorem unique_hides_duplicates : ∃ repos, collect threeRoots threeListings = some repos ∧
    (∃ r ∈ repos, r.rel = ascii ['x']) ∧ OwnTail repos (ascii ['x']) (ascii ['x']) ∧
    formatUnique repos = [] ∧ ¬Shown repos (ascii ['x']) := by
  refine ⟨[⟨ascii ['/', 'a', '/', 'x'], ascii ['x'], false⟩,
    ⟨ascii ['/', 'b', '/', 'x'], ascii ['x'], false⟩], by decide, by decide,
    ⟨by decide, by decide⟩, by decide, ?_⟩
  rintro ⟨p, hp, -⟩
  exact absurd (show p ∈ [] from hp) List.not_mem_nil

end Scap.Listing
