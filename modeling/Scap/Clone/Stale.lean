import Scap.Clone.Machine
import Scap.Config.Destinations

/-!
# Stale temporary directories

`clone_with_lock` removes what `stale_tmp_paths` finds beside the destination: every
`<name>.tmp-<pid>` whose process is gone (`src/cmd/get.rs`, `src/vcs/git.rs`).  These names are
names a repository can have, so the sweep for one repository can meet the clone of another.
`spares_iff` says when it does.  Paths are compared by their components.
-/

namespace Scap

namespace Clone

open Config (Component PathBuf components componentOf)

/-! ## The sweep -/

/-- `Path::parent`. -/
def parent (path : List Component) : Option (List Component) :=
  match path.getLast? with
  | none | some .rootDir => none
  | some _ => some path.dropLast

/-- `Path::file_name`. -/
def fileName (path : List Component) : Option Bytes :=
  match path.getLast? with
  | some (.normal name) => some name
  | _ => none

/-- `stale_tmp_paths`, with the processes alive and what `read_dir` yields for a directory. -/
def staleTmpPaths (alive : ℕ → Bool) (readDir : List Component → Option (List Bytes))
    (dest : PathBuf) : List (List Component) :=
  match parent (components dest) with
  | none => []
  | some dir =>
    match (fileName (components dest)).bind fromUtf8 with
    | none => []
    | some name =>
      match readDir dir with
      | none => []
      | some entries => entries.filterMap fun entry => do
        let entryName ← fromUtf8 entry
        let suffix ← stripStart (name ++ ".tmp-".toList) entryName
        if isStale alive suffix then some (dir ++ [.normal entry]) else none

/-- `dest_path`, on bytes. -/
def destBytes (root : PathBuf) (repo : Repo) (bare : Bool) : PathBuf :=
  Config.pushBytes root (toBytes (relPath repo bare))

section

variable {alive : ℕ → Bool} {readDir : List Component → Option (List Bytes)}

/-- What the sweep finds. -/
lemma mem_staleTmpPaths_iff {dest : PathBuf} {stale : List Component} :
    stale ∈ staleTmpPaths alive readDir dest ↔ ∃ dir name suffix entries,
      components dest = dir ++ [.normal (toBytes name)] ∧ readDir dir = some entries ∧
        toBytes (name ++ ".tmp-".toList ++ suffix) ∈ entries ∧ isStale alive suffix = true ∧
          stale = dir ++ [.normal (toBytes (name ++ ".tmp-".toList ++ suffix))] := by
  unfold staleTmpPaths parent fileName
  rcases List.eq_nil_or_concat' (components dest) with hnil | ⟨dir, last, hlast⟩
  · simp [hnil]
  · rw [hlast, List.getLast?_concat]
    cases last with
    | rootDir | curDir | parentDir => simp
    | normal name =>
      simp only [List.dropLast_concat, Option.bind_some]
      cases hname : fromUtf8 name with
      | none =>
        simp only [List.not_mem_nil, false_iff]
        rintro ⟨dir', name', suffix, entries, heq, -⟩
        obtain ⟨-, heq⟩ := List.append_inj' heq rfl
        obtain rfl : name = toBytes name' := by simpa using heq
        simp at hname
      | some text =>
        obtain rfl := fromUtf8_eq_some_iff.mp hname
        cases hentries : readDir dir with
        | none =>
          simp only [List.not_mem_nil, false_iff]
          rintro ⟨dir', name', suffix, entries, heq, hread, -⟩
          obtain ⟨rfl, -⟩ := List.append_inj' heq rfl
          rw [hentries] at hread
          cases hread
        | some entries =>
          simp only [List.mem_filterMap, Option.bind_eq_bind, Option.bind_eq_some_iff,
            fromUtf8_eq_some_iff, stripStart_eq_some_iff]
          constructor
          · rintro ⟨entry, hentry, entryName, rfl, suffix, rfl, hstale⟩
            split at hstale
            · rename_i hsuffix
              cases hstale
              exact ⟨dir, text, suffix, entries, rfl, hentries, hentry, hsuffix, rfl⟩
            · cases hstale
          · rintro ⟨dir', name', suffix, entries', heq, hread, hentry, hsuffix, rfl⟩
            obtain ⟨rfl, hnames⟩ := List.append_inj' heq rfl
            obtain rfl : text = name' := toBytes_injective (by simpa using hnames)
            obtain rfl : entries = entries' := Option.some.inj (hentries.symm.trans hread)
            exact ⟨_, hentry, _, rfl, suffix, rfl, if_pos hsuffix⟩

/-- The sweep for one destination spares another: it finds neither the other nor what is above
it. -/
def Spares (alive : ℕ → Bool) (readDir : List Component → Option (List Bytes))
    (dest other : PathBuf) : Prop :=
  ∀ stale ∈ staleTmpPaths alive readDir dest, ¬stale <+: components other

/-- A destination lies at, or below, a name beside `dest` that reads as its temporary directory: the
name of `dest`, `.tmp-`, and the number of no live process (`isStale_iff`). -/
def UnderTmpName (alive : ℕ → Bool) (readDir : List Component → Option (List Bytes))
    (dest other : PathBuf) : Prop :=
  ∃ dir name suffix, components dest = dir ++ [.normal (toBytes name)] ∧
    dir ++ [.normal (toBytes (name ++ ".tmp-".toList ++ suffix))] <+: components other ∧
      isStale alive suffix = true ∧ ∃ entries, readDir dir = some entries ∧
        toBytes (name ++ ".tmp-".toList ++ suffix) ∈ entries

/-- A path is spared unless it is under a temporary name. -/
lemma spares_iff_not_underTmpName {dest other : PathBuf} :
    Spares alive readDir dest other ↔ ¬UnderTmpName alive readDir dest other := by
  unfold Spares UnderTmpName
  constructor
  · rintro h ⟨dir, name, suffix, hdest, hother, hstale, entries, hread, hentry⟩
    exact h _ (mem_staleTmpPaths_iff.mpr
      ⟨dir, name, suffix, entries, hdest, hread, hentry, hstale, rfl⟩) hother
  · intro h stale hmem hother
    obtain ⟨dir, name, suffix, entries, hdest, hread, hentry, hstale, rfl⟩ :=
      mem_staleTmpPaths_iff.mp hmem
    exact h ⟨dir, name, suffix, hdest, hother, hstale, entries, hread, hentry⟩

end

/-! ## Destinations below a root -/

/-- A path with more behind a slash has more components. -/
lemma components_append_slash {a : PathBuf} (ha : a ≠ []) (b : PathBuf) :
    components (a ++ slash :: b) = components a ++ (b.splitOn slash).filterMap componentOf := by
  have hhead : (a ++ slash :: b).head? = a.head? := by
    obtain ⟨c, a, rfl⟩ := List.exists_cons_of_ne_nil ha
    rfl
  have hpiece : (a.splitOn slash ++ b.splitOn slash).head? = (a.splitOn slash).head? := by
    obtain ⟨first, rest, hcons⟩ := List.exists_cons_of_ne_nil (List.splitOn_ne_nil slash a)
    rw [hcons]
    rfl
  simp only [components, List.splitOn_append_cons_self, hhead, hpiece, List.filterMap_append,
    List.append_assoc]

/-- The bytes of an ordinary name are a component. -/
lemma componentOf_toBytes {part : Str} (h : Ordinary part) :
    componentOf (toBytes part) = some (.normal (toBytes part)) := by
  have hne : toBytes part ≠ [] := fun heq => h.nonempty (toBytes_injective heq)
  have hdot : toBytes part ≠ ascii ".".toList := fun heq =>
    h.ne_dot (toBytes_injective (heq.trans (by decide)))
  have hdotDot : toBytes part ≠ ascii "..".toList := fun heq =>
    h.ne_dotDot (toBytes_injective (heq.trans (by decide)))
  rw [componentOf, if_neg (not_or.mpr ⟨hne, hdot⟩), if_neg hdotDot]

/-- A relative path of ordinary names adds these names to the components of the root. -/
lemma components_destBytes {root : PathBuf} {repo : Repo} {bare : Bool}
    (h : ∀ part ∈ (relPath repo bare).splitOn '/', Ordinary part) :
    components (destBytes root repo bare) = components root ++
      ((relPath repo bare).splitOn '/').map fun part => .normal (toBytes part) := by
  unfold destBytes
  generalize relPath repo bare = rel at h
  have hsplit : (toBytes rel).splitOn slash = (rel.splitOn '/').map toBytes :=
    splitOn_toBytes (by decide) (by decide) rel
  have hnames : ((toBytes rel).splitOn slash).filterMap componentOf =
      (rel.splitOn '/').map fun part => .normal (toBytes part) := by
    rw [hsplit, List.filterMap_map, ← List.filterMap_eq_map]
    exact List.filterMap_congr fun part hpart => componentOf_toBytes (h part hpart)
  obtain ⟨first, rest, hcons⟩ := List.exists_cons_of_ne_nil (List.splitOn_ne_nil '/' rel)
  have hfirst : Ordinary first := h first (by simp [hcons])
  have hrel : (toBytes rel).head? ≠ some slash := by
    intro hhead
    obtain ⟨rest', rfl⟩ := List.head?_eq_some_iff.mp (Config.head?_of_head?_toBytes hhead)
    rw [show '/' :: rest' = [] ++ '/' :: rest' from rfl, List.splitOn_append_cons_self] at hcons
    obtain ⟨rfl, -⟩ : [] = first ∧ _ := by simpa using hcons
    exact hfirst.nonempty rfl
  rw [Config.pushBytes, if_neg hrel]
  rcases eq_or_ne root [] with rfl | hne
  · have hdot : some (toBytes first) ≠ some (ascii ".".toList) := fun heq =>
      hfirst.ne_dot (toBytes_injective ((Option.some.inj heq).trans (by decide)))
    have hstart : (((toBytes rel).splitOn slash).head? = some (ascii ".".toList)) = False := by
      rw [hsplit, hcons]
      simpa using hdot
    rw [if_pos (.inl rfl), List.nil_append, ← hnames]
    simp only [components, hrel, hstart, if_false, List.head?_nil, List.nil_append]
    rfl
  · split
    · rename_i hlast
      obtain ⟨root, rfl⟩ := List.getLast?_eq_some_iff.mp (hlast.resolve_left hne)
      rw [List.append_assoc, List.singleton_append]
      rcases eq_or_ne root [] with rfl | hne
      · have hroot : components ([] ++ [slash]) = [.rootDir] := by decide
        have hsplit : ([] ++ slash :: toBytes rel).splitOn slash =
            [[]] ++ (toBytes rel).splitOn slash := List.splitOn_append_cons_self ..
        rw [hroot, ← hnames, components, hsplit]
        simp [componentOf]
      · rw [components_append_slash hne, components_append_slash hne, hnames]
        simp [componentOf]
    · rw [components_append_slash hne, hnames]

/-- **When cleaning up for one target spares the clone of another**: unless the other destination is
at, or below, a name that reads as a temporary directory of the first whose process is gone, and the
directory holds that name.  For destinations below the root this is a condition on their relative
paths. -/
theorem spares_iff (alive : ℕ → Bool) (readDir : List Component → Option (List Bytes))
    (root : PathBuf) (repo repo' : Repo) (bare bare' : Bool) :
    (Spares alive readDir (destBytes root repo bare) (destBytes root repo' bare') ↔
      ¬UnderTmpName alive readDir (destBytes root repo bare) (destBytes root repo' bare')) ∧
    ((∀ part ∈ (relPath repo bare).splitOn '/', Ordinary part) →
      (∀ part ∈ (relPath repo' bare').splitOn '/', Ordinary part) →
      ∀ above name, (relPath repo bare).splitOn '/' = above ++ [name] →
        (Spares alive readDir (destBytes root repo bare) (destBytes root repo' bare') ↔
          ¬∃ suffix, above ++ [name ++ ".tmp-".toList ++ suffix] <+:
              (relPath repo' bare').splitOn '/' ∧ isStale alive suffix = true ∧
            ∃ entries, readDir (components root ++
                above.map fun part => .normal (toBytes part)) = some entries ∧
              toBytes (name ++ ".tmp-".toList ++ suffix) ∈ entries)) := by
  refine ⟨spares_iff_not_underTmpName, fun hparts hparts' above name hname => ?_⟩
  rw [spares_iff_not_underTmpName, UnderTmpName, components_destBytes hparts,
    components_destBytes hparts', hname]
  have hinj : Function.Injective fun part : Str => Component.normal (toBytes part) :=
    fun part part' heq => toBytes_injective (Component.normal.inj heq)
  have hpre : ∀ tmp : Str,
      (components root ++ above.map fun part => .normal (toBytes part)) ++
          [.normal (toBytes tmp)] <+: components root ++
          ((relPath repo' bare').splitOn '/').map (fun part => .normal (toBytes part)) ↔
        above ++ [tmp] <+: (relPath repo' bare').splitOn '/' := by
    intro tmp
    rw [List.append_assoc, List.prefix_append_right_inj,
      ← List.map_singleton (f := fun part : Str => Component.normal (toBytes part)),
      ← List.map_append]
    constructor
    · intro h
      obtain ⟨l, hl, heq⟩ := List.prefix_map_iff.mp h
      rwa [List.map_injective_iff.mpr hinj heq]
    · exact fun h => h.map _
  refine not_congr ⟨?_, ?_⟩
  · rintro ⟨dir, name', suffix, hdest, hother, hstale, hentries⟩
    rw [List.map_append, ← List.append_assoc] at hdest
    obtain ⟨rfl, hlast⟩ := List.append_inj' hdest rfl
    obtain rfl : name = name' := toBytes_injective (by simpa using hlast)
    exact ⟨suffix, (hpre _).mp hother, hstale, hentries⟩
  · rintro ⟨suffix, hother, hstale, hentries⟩
    refine ⟨_, name, suffix, ?_, (hpre _).mpr hother, hstale, hentries⟩
    rw [List.map_append, ← List.append_assoc]
    rfl

/-- What `from_input` makes of a name below the user alice. -/
def aliceRepo (name : Str) : Repo := buildGithubRepo ("alice/".toList ++ name) "alice".toList name

/-- A repository whose name does not begin like a temporary directory is spared. -/
theorem spares_iff_sample :
    Spares (fun _ => false) (fun _ => some [toBytes "foo.tmp-7".toList])
      (destBytes (ascii "/r".toList) (aliceRepo "foo".toList) false)
      (destBytes (ascii "/r".toList) (aliceRepo "bar".toList) false) := by
  have hfoo : ∀ part ∈ (relPath (aliceRepo "foo".toList) false).splitOn '/', Ordinary part :=
    forall_mem_of_all (by decide)
  have hbar : ∀ part ∈ (relPath (aliceRepo "bar".toList) false).splitOn '/', Ordinary part :=
    forall_mem_of_all (by decide)
  refine ((spares_iff _ _ _ _ _ _ _).2 hfoo hbar ["github.com".toList, "alice".toList]
    "foo".toList (by decide)).mpr ?_
  rintro ⟨suffix, ⟨rest, hpre⟩, -⟩
  have hsplit : (relPath (aliceRepo "bar".toList) false).splitOn '/' =
      ["github.com".toList, "alice".toList, ['b', 'a', 'r']] := by decide
  rw [hsplit, show "foo".toList = ['f', 'o', 'o'] by decide] at hpre
  have hname := (List.cons.inj (List.cons.inj (List.cons.inj hpre).2).2).1
  exact absurd (List.cons.inj hname).1 (by decide)

/-- A repository may be named like a temporary directory of its neighbour. -/
theorem sweep_finds_other_clone :
    (∀ parse debug aws, fromInput parse debug aws "alice/foo".toList none false =
      .ok (aliceRepo "foo".toList)) ∧
    (∀ parse debug aws, fromInput parse debug aws "alice/foo.tmp-4194303".toList none false =
      .ok (aliceRepo "foo.tmp-4194303".toList)) ∧
    destBytes (ascii "/r".toList) (aliceRepo "foo".toList) false ≠
      destBytes (ascii "/r".toList) (aliceRepo "foo.tmp-4194303".toList) false ∧
    components (destBytes (ascii "/r".toList) (aliceRepo "foo.tmp-4194303".toList) false) ∈
      staleTmpPaths (fun pid => decide (pid ≤ 1000))
        (fun _ => some [toBytes "foo".toList, toBytes "foo.tmp-4194303".toList])
        (destBytes (ascii "/r".toList) (aliceRepo "foo".toList) false) := by
  refine ⟨fun _ _ _ => rfl, fun _ _ _ => rfl, by decide, ?_⟩
  refine mem_staleTmpPaths_iff.mpr ⟨[.rootDir, .normal (ascii "r".toList),
    .normal (ascii "github.com".toList), .normal (ascii "alice".toList)], "foo".toList,
    "4194303".toList, _, by decide, rfl, by decide, by decide, by decide⟩

end Clone

end Scap
