import Scap.Foundations.Split
import Scap.Walk.RelPath
import Scap.Walk.Root

/-!
# Naming repositories

`name_repositories`, `root_prefix` and `push_full_path` (`src/cmd/list.rs`): the absolute paths of
all repositories go into one buffer, and the roots are scanned in configured order for the first one
that contains a path, which names it.

The scan stops at the root that was walked, and works on bytes.  `nameRepositories_eq` says that
neither matters: for clean roots it never fails, and what a path is named depends on the path and
the roots alone (`named`).
-/

namespace Scap.Listing

/-- One repository the walk found, as the post-processing passes see it. -/
structure Repo where
  /-- The repository's absolute path. -/
  abs : Bytes
  /-- The path relative to the root that names this repository, or `.` for that root itself. -/
  rel : Bytes
  /-- Whether the naming root is the primary one. -/
  underPrimary : Bool
deriving Repr, DecidableEq

/-- Where one repository's absolute path sits in the shared buffer, and where the part that names it
begins. -/
structure Naming where
  start : ℕ
  rel : ℕ
  end_ : ℕ
  underPrimary : Bool
deriving Repr, DecidableEq

/-- `push_full_path`: the bytes it appends. -/
def pushFullPath (root rel : Bytes) : Bytes :=
  if rel = dot then root
  else if root.getLast? = some slash then root ++ rel
  else root ++ slash :: rel

/-- `root_prefix`: how much of `abs` to drop for `root` to name it. -/
def rootPrefix (root abs : Bytes) : Option ℕ :=
  if hpre : root <+: abs then
    if hlength : abs.length = root.length then some abs.length
    else if root.getLast? = some slash then some root.length
    else if abs.get ⟨root.length, hpre.length_le.lt_of_ne (Ne.symm hlength)⟩ = slash then
      some (root.length + 1)
    else none
  else none

/-- The scan for the first root that contains a path: its place, and how much it drops. -/
def scan (candidates : List Bytes) (abs : Bytes) : Option (ℕ × ℕ) :=
  candidates.zipIdx.findSome? fun (candidate, i) =>
    (rootPrefix candidate abs).map fun cut => (i, cut)

/-- The body of the loops of `name_repositories`, for one path of the listing of `root`; `none` is
an `expect` that fails. -/
def nameRepository (candidates : List Bytes) (root : Bytes) :
    Bytes × List Naming → Bytes → Option (Bytes × List Naming)
  | (paths, spans), rel => do
    let start := paths.length
    let paths := paths ++ pushFullPath root rel
    let end_ := paths.length
    let (index, cut) ← scan candidates (paths.drop start)
    some (paths, spans ++ [⟨start, start + cut, end_, index = 0⟩])

/-- `name_repositories`.  Only the roots up to the one that was walked are scanned. -/
def nameRepositories (roots : List Bytes) (listings : List RootListing) :
    Option (Bytes × List Naming) :=
  (roots.zip listings).zipIdx.foldlM (fun state ((root, listing), walked) =>
    listing.arena.foldlM (nameRepository (roots.take (walked + 1)) root) state) ([], [])

/-- The absolute path a span stands for. -/
def Naming.abs (paths : Bytes) (span : Naming) : Bytes := (paths.take span.end_).drop span.start

/-- The part that names it, empty for the root itself. -/
def Naming.remainder (paths : Bytes) (span : Naming) : Bytes := (paths.take span.end_).drop span.rel

/-- The repository that `run` makes of a span. -/
def Naming.repo (paths : Bytes) (span : Naming) : Repo where
  abs := span.abs paths
  rel := if (span.remainder paths).isEmpty then dot else span.remainder paths
  underPrimary := span.underPrimary

/-- The repositories that `run` goes on with. -/
def collect (roots : List Bytes) (listings : List RootListing) : Option (List Repo) :=
  (nameRepositories roots listings).map fun (paths, spans) => spans.map (Naming.repo paths)

/-! ## Clean paths -/

/-- A name in a clean path. -/
structure IsName (name : Bytes) : Prop where
  nonempty : name ≠ []
  noSlash : slash ∉ name
  ne_dot : name ≠ dot
  ne_dotDot : name ≠ dotDot

instance (name : Bytes) : Decidable (IsName name) :=
  decidable_of_iff (name ≠ [] ∧ slash ∉ name ∧ name ≠ dot ∧ name ≠ dotDot)
    ⟨fun ⟨h₁, h₂, h₃, h₄⟩ => ⟨h₁, h₂, h₃, h₄⟩, fun ⟨h₁, h₂, h₃, h₄⟩ => ⟨h₁, h₂, h₃, h₄⟩⟩

/-- The relative path of a list of names. -/
def relative (names : List Bytes) : Bytes := [slash].intercalate names

/-- The absolute path of a list of names; that of no names is `/`. -/
def absolute (names : List Bytes) : Bytes := slash :: relative names

/-- An absolute, clean path. -/
def Clean (path : Bytes) : Prop := ∃ names, (∀ name ∈ names, IsName name) ∧ path = absolute names

/-- What a listing holds: relative paths, and `.` for the root itself. -/
def Listed (rel : Bytes) : Prop :=
  rel = dot ∨ ∃ names, names ≠ [] ∧ (∀ name ∈ names, IsName name) ∧ rel = relative names

section Names

variable {p q : List Bytes}

/-- No names are an empty relative path. -/
@[simp] lemma relative_nil : relative [] = [] := rfl

/-- Two relative paths are joined with a slash. -/
lemma relative_append (hp : p ≠ []) (hq : q ≠ []) :
    relative (p ++ q) = relative p ++ slash :: relative q := intercalate_append hp hq

/-- A relative path is split into its names. -/
lemma splitOn_relative (h : ∀ name ∈ p, IsName name) (hne : p ≠ []) :
    (relative p).splitOn slash = p :=
  List.splitOn_intercalate slash (fun name hname => (h name hname).noSlash) hne

/-- Names are a relative path that is not empty. -/
lemma relative_ne_nil (h : ∀ name ∈ p, IsName name) (hne : p ≠ []) : relative p ≠ [] := by
  intro hnil
  have hsplit := splitOn_relative h hne
  rw [hnil, List.splitOn_nil] at hsplit
  exact (h [] (by simp [← hsplit])).nonempty rfl

/-- A path of names is no root. -/
lemma relative_ne_dot (h : ∀ name ∈ p, IsName name) (hne : p ≠ []) : relative p ≠ dot := by
  intro hdot
  have hsplit := splitOn_relative h hne
  rw [hdot] at hsplit
  exact (h dot (by rw [← hsplit]; decide)).ne_dot rfl

/-- A relative path is joined to an absolute one with a slash. -/
lemma absolute_append (hp : p ≠ []) (hq : q ≠ []) :
    absolute (p ++ q) = absolute p ++ slash :: relative q := by
  rw [absolute, relative_append hp hq, absolute, List.cons_append]

/-- An absolute path is split into its names, after an empty one. -/
lemma splitOn_absolute (h : ∀ name ∈ p, IsName name) (hne : p ≠ []) :
    (absolute p).splitOn slash = [] :: p := by
  have hsplit : (slash :: relative p).splitOn slash = ([] ++ slash :: relative p).splitOn slash :=
    rfl
  rw [absolute, hsplit, List.splitOn_append_cons_self, splitOn_relative h hne, List.splitOn_nil]
  rfl

/-- The components of a clean path are its names. -/
@[simp] lemma components_absolute (h : ∀ name ∈ p, IsName name) : components (absolute p) = p := by
  rcases eq_or_ne p [] with rfl | hne
  · rfl
  · rw [components, splitOn_absolute h hne, List.filter_cons_of_neg (by simp),
      List.filter_eq_self.mpr fun name hname => by simpa using (h name hname).nonempty]

/-- Only `/` ends in a separator. -/
lemma getLast?_absolute (h : ∀ name ∈ p, IsName name) :
    (absolute p).getLast? = some slash ↔ p = [] := by
  rcases List.eq_nil_or_concat' p with rfl | ⟨q, name, rfl⟩
  · simp [absolute]
  · obtain ⟨hnonempty, hslash, -, -⟩ := h name (by simp)
    obtain ⟨init, b, rfl⟩ := (List.eq_nil_or_concat' name).resolve_left hnonempty
    have hend : ∃ start, absolute (q ++ [init ++ [b]]) = start ++ [b] := by
      rcases eq_or_ne q [] with rfl | hq
      · exact ⟨slash :: init, by simp [absolute, relative]⟩
      · exact ⟨absolute q ++ slash :: init, by simp [absolute_append hq, relative]⟩
    obtain ⟨start, hstart⟩ := hend
    rw [hstart, List.getLast?_concat]
    simp only [Option.some.injEq, List.append_eq_nil_iff, List.cons_ne_self, and_false, iff_false]
    rintro rfl
    simp at hslash

end Names

/-! ## The scan -/

section Scan

variable {p q : List Bytes}

/-- Below a clean path lie the paths whose names it begins, and nothing else starts with it and a
separator. -/
lemma prefix_of_absolute_append (hp : ∀ name ∈ p, IsName name) (hq : ∀ name ∈ q, IsName name)
    (hne : p ≠ []) {tail : Bytes} (h : absolute p ++ slash :: tail = absolute q) : p <+: q := by
  have hnonempty : q ≠ [] := by
    rintro rfl
    have hlength := congrArg List.length h
    simp [absolute] at hlength
  have hsplit := splitOn_absolute hq hnonempty
  rw [← h, List.splitOn_append_cons_self, splitOn_absolute hp hne, List.cons_append,
    List.cons.injEq] at hsplit
  exact ⟨_, hsplit.2⟩

/-- A root that contains a path leaves the names that follow its own. -/
lemma rootPrefix_of_prefix (hp : ∀ name ∈ p, IsName name) {rest : List Bytes}
    (hrest : ∀ name ∈ rest, IsName name) :
    ∃ cut, rootPrefix (absolute p) (absolute (p ++ rest)) = some cut ∧
      (absolute (p ++ rest)).drop cut = relative rest := by
  rcases eq_or_ne rest [] with rfl | hne
  · rw [List.append_nil, rootPrefix, dif_pos (List.prefix_refl _), dif_pos rfl]
    exact ⟨_, rfl, List.drop_length⟩
  · rcases eq_or_ne p [] with rfl | hpne
    · have hlength : (absolute rest).length ≠ (absolute []).length := by
        have := List.length_pos_of_ne_nil (relative_ne_nil hrest hne)
        simp only [absolute, relative_nil, List.length_cons, List.length_nil]
        omega
      rw [List.nil_append, rootPrefix, dif_pos ⟨relative rest, rfl⟩, dif_neg hlength,
        if_pos ((getLast?_absolute hp).mpr rfl)]
      exact ⟨_, rfl, rfl⟩
    · have habs : absolute (p ++ rest) = absolute p ++ slash :: relative rest :=
        absolute_append hpne hne
      have hlength : (absolute p ++ slash :: relative rest).length ≠ (absolute p).length := by simp
      rw [habs, rootPrefix, dif_pos (List.prefix_append ..), dif_neg hlength,
        if_neg (mt (getLast?_absolute hp).mp hpne), if_pos (by simp)]
      exact ⟨_, rfl, by simp [List.drop_append]⟩

/-- A root that does not contain a path does not name it. -/
lemma rootPrefix_of_not_isPrefix (hp : ∀ name ∈ p, IsName name) (hq : ∀ name ∈ q, IsName name)
    (h : ¬p <+: q) : rootPrefix (absolute p) (absolute q) = none := by
  have hne : p ≠ [] := by
    rintro rfl
    exact h List.nil_prefix
  unfold rootPrefix
  split_ifs with hpre hlength hlast hslash
  · have heq := congrArg components (hpre.eq_of_length hlength.symm)
    rw [components_absolute hp, components_absolute hq] at heq
    exact absurd (heq ▸ List.prefix_refl p) h
  · exact absurd ((getLast?_absolute hp).mp hlast) hne
  · obtain ⟨tail, htail⟩ := hpre
    have hget : (absolute q)[(absolute p).length]? = some slash :=
      List.getElem?_eq_some_iff.mpr ⟨_, hslash⟩
    rw [← htail, List.getElem?_append_right le_rfl, Nat.sub_self] at hget
    obtain ⟨rest, rfl⟩ : ∃ rest, tail = slash :: rest := by
      cases tail with
      | nil => cases hget
      | cons b rest => exact ⟨rest, by rw [Option.some.inj (show some b = some slash from hget)]⟩
    exact absurd (prefix_of_absolute_append hp hq hne htail) h
  · rfl
  · rfl

/-- A clean root is a prefix of a clean path if its components are one of the other's. -/
lemma rootPrefix_isSome_iff {root abs : Bytes} (hroot : Clean root) (habs : Clean abs) :
    (rootPrefix root abs).isSome ↔ components root <+: components abs := by
  obtain ⟨p, hp, rfl⟩ := hroot
  obtain ⟨q, hq, rfl⟩ := habs
  rw [components_absolute hp, components_absolute hq]
  constructor
  · intro hsome
    by_contra hnot
    rw [rootPrefix_of_not_isPrefix hp hq hnot] at hsome
    cases hsome
  · rintro ⟨rest, rfl⟩
    obtain ⟨cut, hcut, -⟩ := rootPrefix_of_prefix hp fun name hname =>
      hq name (List.mem_append_right p hname)
    rw [hcut]
    rfl

/-- The scan ends at the first root that contains the path. -/
lemma scan_eq_some_iff {candidates : List Bytes} {abs : Bytes} {i cut : ℕ} :
    scan candidates abs = some (i, cut) ↔ ∃ root, candidates[i]? = some root ∧
      rootPrefix root abs = some cut ∧
      ∀ j < i, ∀ other, candidates[j]? = some other → rootPrefix other abs = none := by
  unfold scan
  rw [List.findSome?_eq_some_iff]
  constructor
  · rintro ⟨before, ⟨root, k⟩, after, hsplit, hcut, hbefore⟩
    have hget : candidates.zipIdx[before.length]? = some (root, k) := by simp [hsplit]
    rw [List.getElem?_zipIdx, Option.map_eq_some_iff] at hget
    obtain ⟨_, hroot, heq⟩ := hget
    obtain ⟨rfl, rfl⟩ : _ = root ∧ 0 + before.length = k := by simpa using heq
    obtain ⟨c, hc, heq⟩ := Option.map_eq_some_iff.mp hcut
    obtain ⟨rfl, rfl⟩ : 0 + before.length = i ∧ c = cut := by simpa using heq
    rw [Nat.zero_add]
    refine ⟨_, hroot, hc, fun j hj other hother => ?_⟩
    have hmem : (other, j) ∈ before := by
      have hget : candidates.zipIdx[j]? = some (other, j) := by
        rw [List.getElem?_zipIdx, hother]
        simp
      rw [hsplit, List.getElem?_append_left hj] at hget
      exact List.mem_of_getElem? hget
    simpa using hbefore _ hmem
  · rintro ⟨root, hroot, hcut, hfirst⟩
    obtain ⟨hi, rfl⟩ := List.getElem?_eq_some_iff.mp hroot
    refine ⟨candidates.zipIdx.take i, (candidates[i], i), candidates.zipIdx.drop (i + 1), ?_, ?_,
      ?_⟩
    · have hi' : i < candidates.zipIdx.length := by simpa using hi
      have hget : candidates.zipIdx[i] = (candidates[i], i) := by simp
      rw [← hget, ← List.drop_eq_getElem_cons hi', List.take_append_drop]
    · simp only [hcut, Option.map_some]
    · rintro ⟨other, j⟩ hmem
      obtain ⟨k, hk, hget⟩ := List.mem_iff_getElem.mp hmem
      rw [List.getElem_take, List.getElem_zipIdx, Prod.mk.injEq] at hget
      obtain ⟨rfl, rfl⟩ := hget
      have hlt : k < i := (List.length_take_le _ _).trans_lt' hk
      have hget : candidates[k]? = some candidates[k] := List.getElem?_eq_getElem (hlt.trans hi)
      simp only [hfirst k hlt _ hget, Option.map_none]

/-- A scan that ends among the first roots ends there among all of them. -/
lemma scan_take {candidates : List Bytes} {abs : Bytes} {n : ℕ} {found : ℕ × ℕ}
    (h : scan (candidates.take n) abs = some found) : scan candidates abs = some found := by
  obtain ⟨i, cut⟩ := found
  obtain ⟨root, hroot, hcut, hfirst⟩ := scan_eq_some_iff.mp h
  have hi : i < n := by
    have := (List.getElem?_eq_some_iff.mp hroot).1
    simp at this
    omega
  rw [List.getElem?_take_of_lt hi] at hroot
  refine scan_eq_some_iff.mpr ⟨root, hroot, hcut, fun j hj other hother => hfirst j hj other ?_⟩
  rwa [List.getElem?_take_of_lt (hj.trans hi)]

/-- A scan over a root that contains the path ends. -/
lemma exists_scan {candidates : List Bytes} {abs root : Bytes} (hmem : root ∈ candidates)
    (h : (rootPrefix root abs).isSome) : ∃ found, scan candidates abs = some found := by
  rw [← Option.isSome_iff_exists, scan, List.findSome?_isSome_iff]
  obtain ⟨i, hi⟩ := List.mem_iff_getElem?.mp hmem
  have hget : candidates.zipIdx[i]? = some (root, i) := by
    rw [List.getElem?_zipIdx, hi]
    simp
  exact ⟨(root, i), List.mem_of_getElem? hget, by simpa using h⟩

end Scan

/-! ## What a path is named -/

/-- What a path is named, wherever it was found. -/
def named (roots : List Bytes) (abs : Bytes) : Option Repo :=
  (scan roots abs).map fun (index, cut) =>
    ⟨abs, if (abs.drop cut).isEmpty then dot else abs.drop cut, index = 0⟩

/-- The absolute paths of all that was found, in order. -/
def walkedPaths (roots : List Bytes) (listings : List RootListing) : List Bytes :=
  (roots.zip listings).flatMap fun (root, listing) => listing.arena.map (pushFullPath root)

/-- The first root, in configured order, that a path is, or lies below. -/
structure IsFirst (roots : List Bytes) (abs : Bytes) (i : ℕ) (root : Bytes) : Prop where
  configured : roots[i]? = some root
  contains : components root <+: components abs
  first : ∀ j < i, ∀ other, roots[j]? = some other → ¬components other <+: components abs

/-- A listed path is some names below its root. -/
lemma Listed.exists_names {rel : Bytes} (h : Listed rel) : ∃ names,
    (∀ name ∈ names, IsName name) ∧ (components rel).filter (· ≠ dot) = names ∧
      rel = if names = [] then dot else relative names := by
  obtain rfl | ⟨names, hne, hnames, rfl⟩ := h
  · exact ⟨[], by simp, rfl, rfl⟩
  · refine ⟨names, hnames, ?_, (if_neg hne).symm⟩
    have hcomponents : components (relative names) = names := by
      rw [components, splitOn_relative hnames hne]
      exact List.filter_eq_self.mpr fun name hname => by simpa using (hnames name hname).nonempty
    rw [hcomponents]
    exact List.filter_eq_self.mpr fun name hname => by simpa using (hnames name hname).ne_dot

/-- A root joined with some names below it. -/
lemma pushFullPath_eq {p names : List Bytes} (hp : ∀ name ∈ p, IsName name)
    (hnames : ∀ name ∈ names, IsName name) :
    pushFullPath (absolute p) (if names = [] then dot else relative names) =
      absolute (p ++ names) := by
  unfold pushFullPath
  rcases eq_or_ne names [] with rfl | hne
  · rw [if_pos rfl, if_pos rfl, List.append_nil]
  · rw [if_neg hne, if_neg (relative_ne_dot hnames hne)]
    rcases eq_or_ne p [] with rfl | hpne
    · rw [if_pos ((getLast?_absolute hp).mpr rfl)]
      rfl
    · rw [if_neg (mt (getLast?_absolute hp).mp hpne), absolute_append hpne hne]

/-- The path of a listed repository is clean, and its components are those of its root and its
own. -/
lemma clean_pushFullPath {root rel : Bytes} (hroot : Clean root) (hrel : Listed rel) :
    Clean (pushFullPath root rel) ∧ components (pushFullPath root rel) =
      components root ++ (components rel).filter (· ≠ dot) := by
  obtain ⟨p, hp, rfl⟩ := hroot
  obtain ⟨names, hnames, hfilter, hrel⟩ := hrel.exists_names
  have hall : ∀ name ∈ p ++ names, IsName name := fun name hname =>
    (List.mem_append.mp hname).elim (hp name) (hnames name)
  rw [hfilter, hrel, pushFullPath_eq hp hnames]
  exact ⟨⟨_, hall, rfl⟩, by rw [components_absolute hall, components_absolute hp]⟩

/-- A path below a clean root is named by the first root that contains it, and the name leads back
to it. -/
lemma named_eq_some {roots : List Bytes} (hroots : ∀ root ∈ roots, Clean root) {abs : Bytes}
    (habs : Clean abs) {repo : Repo} (h : named roots abs = some repo) :
    repo.abs = abs ∧ ∃ i root, IsFirst roots abs i root ∧ pushFullPath root repo.rel = abs ∧
      (repo.underPrimary = true ↔ i = 0) := by
  obtain ⟨⟨i, cut⟩, hscan, rfl⟩ := Option.map_eq_some_iff.mp h
  obtain ⟨root, hroot, hcut, hfirst⟩ := scan_eq_some_iff.mp hscan
  have hclean := hroots root (List.mem_of_getElem? hroot)
  have hcontains := (rootPrefix_isSome_iff hclean habs).mp (by rw [hcut]; rfl)
  refine ⟨rfl, i, root, ⟨hroot, hcontains, fun j hj other hother hother' => ?_⟩, ?_, by simp⟩
  · have hsome := (rootPrefix_isSome_iff (hroots other (List.mem_of_getElem? hother)) habs).mpr
      hother'
    rw [hfirst j hj other hother] at hsome
    cases hsome
  · obtain ⟨p, hp, rfl⟩ := hclean
    obtain ⟨q, hq, rfl⟩ := habs
    rw [components_absolute hp, components_absolute hq] at hcontains
    obtain ⟨rest, rfl⟩ := hcontains
    have hrest : ∀ name ∈ rest, IsName name := fun name hname =>
      hq name (List.mem_append_right p hname)
    obtain ⟨cut', hcut', hdrop⟩ := rootPrefix_of_prefix hp hrest
    obtain rfl : cut = cut' := Option.some.inj (hcut.symm.trans hcut')
    have hempty : (relative rest).isEmpty = true ↔ rest = [] := by
      rw [List.isEmpty_iff]
      exact ⟨fun hnil => by_contra fun hne => relative_ne_nil hrest hne hnil,
        fun h => by rw [h]; rfl⟩
    simp only [hdrop, hempty]
    exact pushFullPath_eq hp hrest

/-! ## The loops -/

/-- The spans lie in the buffer and stand for the paths that were found, each with its name. -/
structure Collected (roots found : List Bytes) (paths : Bytes) (spans : List Naming) : Prop where
  inside : ∀ span ∈ spans, span.end_ ≤ paths.length
  abs : (spans.map fun span => span.abs paths) = found
  named : ∀ span ∈ spans, named roots (span.abs paths) = some (span.repo paths)

/-- What is appended to the buffer does not change what a span stands for. -/
lemma Naming.repo_append {paths : Bytes} {span : Naming} (h : span.end_ ≤ paths.length)
    (more : Bytes) : span.repo (paths ++ more) = span.repo paths := by
  have htake : (paths ++ more).take span.end_ = paths.take span.end_ :=
    List.take_append_of_le_length h
  unfold Naming.repo Naming.remainder Naming.abs
  rw [htake]

/-- One turn of the loops names one more path. -/
lemma Collected.nameRepository {roots found candidates : List Bytes} {paths : Bytes}
    {spans : List Naming} (h : Collected roots found paths spans) {n : ℕ}
    (hcandidates : candidates = roots.take n) {root rel : Bytes} (hmem : root ∈ candidates)
    (hcontains : (rootPrefix root (pushFullPath root rel)).isSome) :
    ∃ paths' spans', nameRepository candidates root (paths, spans) rel = some (paths', spans') ∧
      Collected roots (found ++ [pushFullPath root rel]) paths' spans' := by
  obtain ⟨⟨i, cut⟩, hscan⟩ := exists_scan hmem hcontains
  have hall := hscan
  rw [hcandidates] at hall
  have hdrop : (paths ++ pushFullPath root rel).drop paths.length = pushFullPath root rel :=
    List.drop_left
  have hbefore : ∀ span ∈ spans,
      span.repo (paths ++ pushFullPath root rel) = span.repo paths := fun span hspan =>
    Naming.repo_append (h.inside span hspan) _
  have hadded : Naming.repo (paths ++ pushFullPath root rel) ⟨paths.length, paths.length + cut,
      (paths ++ pushFullPath root rel).length, i = 0⟩ = ⟨pushFullPath root rel,
        if ((pushFullPath root rel).drop cut).isEmpty then dot
          else (pushFullPath root rel).drop cut, i = 0⟩ := by
    have hremainder : (paths ++ pushFullPath root rel).drop (paths.length + cut) =
        (pushFullPath root rel).drop cut := by rw [← List.drop_drop, hdrop]
    unfold Naming.repo Naming.abs Naming.remainder
    rw [List.take_length, hdrop, hremainder]
  refine ⟨_, _, by simp only [Listing.nameRepository, hdrop, hscan]; rfl, ?_, ?_, ?_⟩
  · intro span hspan
    rcases List.mem_append.mp hspan with hspan | hspan
    · exact (h.inside span hspan).trans (by simp)
    · rw [List.mem_singleton.mp hspan]
  · rw [List.map_append, List.map_singleton, ← h.abs]
    exact congrArg₂ _ (List.map_congr_left fun span hspan => congrArg Repo.abs (hbefore span hspan))
      (congrArg (fun repo => [Repo.abs repo]) hadded)
  · intro span hspan
    rcases List.mem_append.mp hspan with hspan | hspan
    · rw [hbefore span hspan, ← h.named span hspan]
      exact congrArg (Listing.named roots) (congrArg Repo.abs (hbefore span hspan))
    · rw [List.mem_singleton.mp hspan, hadded]
      have habs := congrArg Repo.abs hadded
      rw [show Naming.abs _ _ = _ from habs, Listing.named, scan_take hall, Option.map_some]

/-- The loop over one listing names its paths. -/
lemma Collected.listing {roots found candidates : List Bytes} {paths : Bytes}
    {spans : List Naming} (h : Collected roots found paths spans) {n : ℕ}
    (hcandidates : candidates = roots.take n) {root : Bytes} (hmem : root ∈ candidates)
    {rels : List Bytes}
    (hcontains : ∀ rel ∈ rels, (rootPrefix root (pushFullPath root rel)).isSome) :
    ∃ paths' spans', rels.foldlM (Listing.nameRepository candidates root) (paths, spans) =
        some (paths', spans') ∧
      Collected roots (found ++ rels.map (pushFullPath root)) paths' spans' := by
  induction rels generalizing found paths spans with
  | nil => exact ⟨paths, spans, rfl, by simpa using h⟩
  | cons rel rels ih =>
    obtain ⟨hrel, hrels⟩ := List.forall_mem_cons.mp hcontains
    obtain ⟨paths₁, spans₁, hstep, h₁⟩ := h.nameRepository hcandidates hmem hrel
    obtain ⟨paths', spans', hrest, h'⟩ := ih h₁ hrels
    refine ⟨paths', spans', ?_, by simpa using h'⟩
    rw [List.foldlM_cons, hstep]
    exact hrest

/-- Whatever the roots, the buffer and the spans end up with every path that was found, each named
as it would be by itself. -/
theorem nameRepositories_eq {roots : List Bytes} (hroots : ∀ root ∈ roots, Clean root)
    {listings : List RootListing}
    (hlistings : ∀ listing ∈ listings, ∀ rel ∈ listing.arena, Listed rel) :
    ∃ paths spans, nameRepositories roots listings = some (paths, spans) ∧
      Collected roots (walkedPaths roots listings) paths spans := by
  have hitems : ∀ (items : List ((Bytes × RootListing) × ℕ)) {found : List Bytes} {paths : Bytes}
      {spans : List Naming}, Collected roots found paths spans →
      (∀ item ∈ items, roots[item.2]? = some item.1.1 ∧ ∀ rel ∈ item.1.2.arena, Listed rel) →
      ∃ paths' spans', items.foldlM (fun state ((root, listing), walked) =>
          listing.arena.foldlM (nameRepository (roots.take (walked + 1)) root) state)
          (paths, spans) = some (paths', spans') ∧
        Collected roots (found ++ items.flatMap fun item =>
          item.1.2.arena.map (pushFullPath item.1.1)) paths' spans' := by
    intro items
    induction items with
    | nil => exact fun h _ => ⟨_, _, rfl, by simpa using h⟩
    | cons item items ih =>
      intro found paths spans h hall
      obtain ⟨⟨root, listing⟩, walked⟩ := item
      obtain ⟨⟨hroot, hlisted⟩, hrest⟩ := List.forall_mem_cons.mp hall
      have hmem : root ∈ roots.take (walked + 1) := by
        refine List.mem_iff_getElem?.mpr ⟨walked, ?_⟩
        rw [List.getElem?_take_of_lt (Nat.lt_succ_self _)]
        exact hroot
      have hclean := hroots root (List.mem_of_getElem? hroot)
      -- The walked root contains every path its own walk produced.
      obtain ⟨paths₁, spans₁, hstep, h₁⟩ := h.listing rfl hmem fun rel hrel => by
        obtain ⟨habs, hcomponents⟩ := clean_pushFullPath hclean (hlisted rel hrel)
        rw [rootPrefix_isSome_iff hclean habs, hcomponents]
        exact List.prefix_append ..
      obtain ⟨paths', spans', hrun, h'⟩ := ih h₁ hrest
      refine ⟨paths', spans', ?_, by simpa using h'⟩
      rw [List.foldlM_cons]
      exact (congrArg (· >>= _) hstep).trans hrun
  have hstart : Collected roots [] [] [] := ⟨by simp, rfl, by simp⟩
  obtain ⟨paths, spans, hrun, h⟩ := hitems (roots.zip listings).zipIdx hstart fun item hitem => by
    have hget := List.mem_zipIdx_iff_getElem?.mp hitem
    obtain ⟨hroot, hlisting⟩ := List.getElem?_zip_eq_some.mp hget
    exact ⟨hroot, hlistings _ (List.mem_of_getElem? hlisting)⟩
  refine ⟨paths, spans, hrun, ?_⟩
  have hflat : ((roots.zip listings).zipIdx.flatMap fun item =>
      item.1.2.arena.map (pushFullPath item.1.1)) = walkedPaths roots listings := by
    rw [walkedPaths]
    conv_rhs => rw [← List.zipIdx_map_fst 0 (roots.zip listings)]
    rw [List.flatMap_map]
  rwa [List.nil_append, hflat] at h

/-- Naming is total and a function of the path alone: each path is its root joined with the path
that was listed, the first root that contains it names it, its name leads back to it, and paths that
are equal, whichever walks came upon them, are named alike. -/
theorem nameRepositories_names {roots : List Bytes} (hroots : ∀ root ∈ roots, Clean root)
    {listings : List RootListing}
    (hlistings : ∀ listing ∈ listings, ∀ rel ∈ listing.arena, Listed rel) :
    ∃ paths spans, nameRepositories roots listings = some (paths, spans) ∧
      (spans.map fun span => span.abs paths) = ((roots.zip listings).flatMap fun (root, listing) =>
        listing.arena.map (pushFullPath root)) ∧
      (∀ root ∈ roots, ∀ rel, Listed rel → components (pushFullPath root rel) =
        components root ++ (components rel).filter (· ≠ dot)) ∧
      (∀ span ∈ spans, ∃ i root, IsFirst roots (span.abs paths) i root ∧
        pushFullPath root (span.repo paths).rel = span.abs paths ∧
        (span.underPrimary = true ↔ i = 0)) ∧
      ∀ s ∈ spans, ∀ t ∈ spans, s.abs paths = t.abs paths →
        (s.repo paths).rel = (t.repo paths).rel ∧ s.underPrimary = t.underPrimary := by
  obtain ⟨paths, spans, hrun, h⟩ := nameRepositories_eq hroots hlistings
  have hclean : ∀ span ∈ spans, Clean (span.abs paths) := by
    intro span hspan
    have hmem : span.abs paths ∈ walkedPaths roots listings := by
      rw [← h.abs]
      exact List.mem_map_of_mem hspan
    obtain ⟨⟨root, listing⟩, hzip, hpath⟩ := List.mem_flatMap.mp hmem
    obtain ⟨rel, hrel, hpath⟩ := List.mem_map.mp hpath
    obtain ⟨hroot, hlisting⟩ := List.of_mem_zip hzip
    rw [← hpath]
    exact (clean_pushFullPath (hroots root hroot) (hlistings listing hlisting rel hrel)).1
  refine ⟨paths, spans, hrun, h.abs, fun root hroot rel hrel =>
    (clean_pushFullPath (hroots root hroot) hrel).2, fun span hspan => ?_, fun s hs t ht heq => ?_⟩
  · exact (named_eq_some hroots (hclean span hspan) (h.named span hspan)).2
  · have hsame := h.named s hs
    rw [heq, h.named t ht, Option.some.injEq] at hsame
    exact ⟨congrArg Repo.rel hsame.symm, congrArg Repo.underPrimary hsame.symm⟩

/-- A root, and another one nested in it. -/
def nestedRoots : List Bytes := [absolute [ascii ['r']], absolute [ascii ['r'], ascii ['i']]]

/-- Both walks come upon the repository `/r/i/x`. -/
def nestedListings : List RootListing :=
  [{ arena := [relative [ascii ['i'], ascii ['x']]] }, { arena := [ascii ['x'], dot] }]

/-- A repository below two roots is named twice, by the first root in the order of the roots. -/
theorem nameRepositories_names_sample : ∃ paths spans,
    nameRepositories nestedRoots nestedListings = some (paths, spans) ∧
      (spans.map fun span => span.abs paths) = [absolute [ascii ['r'], ascii ['i'], ascii ['x']],
        absolute [ascii ['r'], ascii ['i'], ascii ['x']], absolute [ascii ['r'], ascii ['i']]] ∧
      ∀ s ∈ spans, ∀ t ∈ spans, s.abs paths = t.abs paths →
        (s.repo paths).rel = (t.repo paths).rel ∧ s.underPrimary = t.underPrimary := by
  have hroots : ∀ root ∈ nestedRoots, Clean root := by
    intro root hroot
    rcases List.mem_pair.mp hroot with rfl | rfl
    · exact ⟨[ascii ['r']], by decide, rfl⟩
    · exact ⟨[ascii ['r'], ascii ['i']], by decide, rfl⟩
  have hlistings : ∀ listing ∈ nestedListings, ∀ rel ∈ listing.arena, Listed rel := by
    intro listing hlisting rel hrel
    rcases List.mem_pair.mp hlisting with rfl | rfl
    · exact .inr ⟨[ascii ['i'], ascii ['x']], by decide, by decide, List.mem_singleton.mp hrel⟩
    · rcases List.mem_pair.mp hrel with rfl | rfl
      · exact .inr ⟨[ascii ['x']], by decide, by decide, rfl⟩
      · exact .inl rfl
  obtain ⟨paths, spans, hrun, habs, -, -, hsame⟩ := nameRepositories_names hroots hlistings
  exact ⟨paths, spans, hrun, habs, hsame⟩

end Scap.Listing
