import Scap.Index.Believed
import Scap.Walk.Subtree

/-!
# An index and a later tree

An index built from a complete walk of the tree `before` (`Index.BuiltFrom`) is validated against
the tree `now` (`Index.Validates`).  Symlinks and permissions are arbitrary in both.  What the index
recalls is what the walk came upon (`Index.Recalls`), and above every path that the pass keeps or
hands back lie directories that it keeps (`Index.Recalls.exists_fresh_above`).

`Tree.SameEntries` and `Tree.Unchanged` say what a directory's mtime is evidence of: the names and
types of its entries, and, where it is assumed, its permissions.
-/

namespace Scap

/-! ## What an index recalls -/

/-- The index was built from the records of a complete walk of the root. -/
def Index.BuiltFrom (wildmatch : Bytes → Bytes → Bool) (before : Tree) (root : Bytes)
    (index : Index) : Prop :=
  ∃ (full : Bytes → Bool) (opts : WalkOptions) (listing : RootListing)
    (statRoot : Except Errno Stat) (writtenNs : Int64), opts.record = true ∧
    WalkRootCapped wildmatch full before.host root opts (.ok listing) ∧ listing.incomplete = false ∧
    build statRoot writtenNs root opts listing.records = some index

/-- Validating the index of a root against a tree, whose root could be opened, concludes
`outcome`. -/
def Index.Validates (now : Tree) (root : Bytes) (index : Index) (outcome : Outcome) : Prop :=
  now.host.openRoot = .ok () ∧ ∃ threads,
    walkIndex index (probeAll now.sys ((fileName root).getD []) index threads) = some outcome

/-- The records of an index are what a walk of the tree came upon, which dropped nothing. -/
structure Index.Recalls (wildmatch : Bytes → Bytes → Bool) (before : Tree) (root : Bytes)
    (index : Index) (spared : Bytes → Bool) (records : List Record) : Prop where
  walksInto : before.WalksInto root
  represents : Represents index.entries records
  mem_iff : ∀ record, record ∈ records ↔
    ∃ f ∈ before.found wildmatch index.exclude spared [[]], f.record? = some record
  complete : ∀ rel, Finding.dropped rel ∉ before.found wildmatch index.exclude spared [[]]

variable {wildmatch : Bytes → Bytes → Bool} {before now : Tree} {root : Bytes} {index : Index}
  {spared : Bytes → Bool} {records : List Record} {outcome : Outcome}

/-- A finding and its record are about one path. -/
lemma Finding.rel_of_record? {f : Finding} {record : Record} (h : f.record? = some record) :
    record.rel = f.rel := by
  cases f <;> cases h <;> rfl

/-- What is recorded of findings at distinct paths has distinct paths. -/
lemma nodup_rel_of_findings {found : Multiset Finding} (h : (found.map Finding.rel).Nodup)
    {records : List Record}
    (hrecords : (records : Multiset Record) = found.filterMap Finding.record?) :
    (records.map Record.rel).Nodup := by
  obtain ⟨findings, rfl⟩ := Quot.exists_rep found
  have hperm : records.Perm (findings.filterMap Finding.record?) := Multiset.coe_eq_coe.mp hrecords
  have hsub : ((findings.filterMap Finding.record?).map Record.rel).Sublist
      (findings.map Finding.rel) := by
    rw [List.map_filterMap, List.filterMap_eq_flatMap_toList]
    refine flatMap_sublist_map (fun f => ?_) findings
    cases hrecord : f.record? with
    | none => exact List.nil_sublist _
    | some record => simp [Finding.rel_of_record? hrecord]
  exact (hperm.map Record.rel).nodup_iff.mpr ((Multiset.coe_nodup.mp h).sublist hsub)

/-- An index built from a complete walk recalls a bare root, or what a walk of the root came
upon. -/
lemma Index.BuiltFrom.cases (h : index.BuiltFrom wildmatch before root) : 0 ∉ root ∧
    (isBareRoot root = true ∧ Represents index.entries [.repo []] ∨
      isBareRoot root = false ∧ ∃ spared records,
        index.Recalls wildmatch before root spared records) := by
  obtain ⟨full, opts, listing, statRoot, writtenNs, hrecord, hwalk, hcomplete, hbuild⟩ := h
  have hnul : 0 ∉ root := by
    intro hnul
    rw [WalkRootCapped, if_pos hnul] at hwalk
    cases hwalk
  refine ⟨hnul, ?_⟩
  by_cases hinto : before.WalksInto root
  · obtain ⟨listing', hok, hreports⟩ := hwalk.reports hinto
    obtain rfl : listing = listing' := by simpa using hok
    have hrecords : (listing.records : Multiset Record) =
        (before.found wildmatch opts.exclude (Tree.sparedBy opts.detect full) [[]]).filterMap
          Finding.record? := by rw [hreports.records, hrecord, if_pos rfl]
    have hnodup := nodup_rel_of_findings
        (Tree.nodup_rel_found (Tree.reads_nil hinto.opens)) hrecords
    obtain ⟨hrepresents, -, -, -, -, -, -, hexclude⟩ := build_represents hnodup hbuild
    refine .inr ⟨hinto.notBare, Tree.sparedBy opts.detect full, listing.records, hinto, hrepresents,
      fun record => ?_, fun rel => ?_⟩
    · rw [← Multiset.mem_coe, hrecords, Multiset.mem_filterMap, hexclude]
    · rw [hexclude]
      intro hdropped
      rw [hreports.incomplete.mpr ⟨rel, hdropped⟩] at hcomplete
      cases hcomplete
  · unfold WalkRootCapped at hwalk
    split_ifs at hwalk with hwalkable hbare
    · obtain rfl : listing = Out.new := by simpa using hwalk
      simp [build, Out.new, sortRecords] at hbuild
    · obtain rfl : listing = Out.emit opts.record [] := by simpa using hwalk
      refine .inl ⟨hbare, ?_⟩
      rw [hrecord] at hbuild
      have hnodup : ((Out.emit true []).records.map Record.rel).Nodup := List.nodup_singleton _
      exact (build_represents hnodup hbuild).1
    · split at hwalk
      · rename_i hbase _
        have hopens : before.opens [] = true := by
          rw [Tree.opens, show before.root.openDir (components []) = .ok () from hbase]
          rfl
        exact absurd ⟨hnul, by simpa using hwalkable, by simpa using hbare, hopens⟩ hinto
      · obtain rfl : listing = RootListing.unreadable := by simpa using hwalk
        cases hcomplete

namespace Index.Recalls

variable (h : index.Recalls wildmatch before root spared records)

include h

/-- A record is about a valid path. -/
lemma exists_path {record : Record} (hrecord : record ∈ records) :
    ∃ p, ValidPath p ∧ record.rel = render p := by
  obtain ⟨f, hf, hrec⟩ := (h.mem_iff record).mp hrecord
  rw [Finding.rel_of_record? hrec]
  exact Tree.exists_path_of_mem_found h.walksInto.opens hf

/-- A recorded repository is one to the walk. -/
lemma mem_found_of_repo {rel : Bytes} (hrecord : Record.repo rel ∈ records) :
    Finding.repo rel ∈ before.found wildmatch index.exclude spared [[]] := by
  obtain ⟨f, hf, hrec⟩ := (h.mem_iff _).mp hrecord
  cases f <;> cases hrec
  exact hf

/-- A recorded directory was read, and its entries did not make it a repository. -/
lemma reads_of_dir {rel : Bytes} {mtime : Int64} (hrecord : Record.dir rel mtime ∈ records) :
    before.Reads wildmatch index.exclude (components rel) ∧ rel = render (components rel) ∧
      before.inside rel = false := by
  obtain ⟨f, hf, hrec⟩ := (h.mem_iff _).mp hrecord
  obtain ⟨p, hp, hown⟩ := (Tree.mem_found_root h.walksInto.opens).mp hf
  obtain ⟨attr, r, x, entries, hat⟩ := (hp.opened p (List.prefix_refl p)).1
  rw [Tree.ownFound_eq hat] at hown
  split_ifs at hown with hinside
  · obtain rfl := List.mem_singleton.mp hown
    cases hrec
  · rcases List.mem_cons.mp hown with rfl | hown
    · obtain rfl : rel = render p := congrArg Record.rel (Option.some.inj hrec).symm
      rw [components_render hp.validPath]
      exact ⟨hp, rfl, by simpa using hinside⟩
    · -- No entry amounts to a directory.
      obtain ⟨e, -, hent⟩ := List.mem_flatMap.mp hown
      unfold Tree.entFound at hent
      split at hent
      · obtain rfl := List.mem_singleton.mp hent
        cases hrec
      · obtain rfl := List.mem_singleton.mp hent
        cases hrec
      · split_ifs at hent <;> obtain rfl := List.mem_singleton.mp hent <;> cases hrec
      · exact absurd hent List.not_mem_nil

/-- Above a path that is borne out lie directories that the pass keeps. -/
lemma exists_fresh_above (hvalidates : index.Validates now root outcome) {p : List Bytes}
    (hp : ValidPath p)
    (hborne : Borne now.sys ((fileName root).getD []) index.writtenNs records p) :
    ∀ q, q <+: p → q ≠ p → ∃ mtime, Record.dir (render q) mtime ∈ outcome.fresh := by
  obtain ⟨-, threads, hpass⟩ := hvalidates
  intro q hq hne
  obtain ⟨mtime, hdir, hholds⟩ := hborne q hq hne
  refine ⟨mtime, ((mem_outcome_iff h.represents (fun _ => h.exists_path) hpass).1 _).mpr
    ⟨hdir, hholds, ?_⟩⟩
  have hcomponents : components (Record.dir (render q) mtime).rel = q :=
    components_render (hp.of_prefix hq)
  rw [hcomponents]
  exact hborne.of_prefix hq

/-- What the pass keeps was recorded and holds, and above it lie directories that the pass keeps. -/
lemma of_mem_fresh (hvalidates : index.Validates now root outcome) {record : Record}
    (hrecord : record ∈ outcome.fresh) :
    record ∈ records ∧ record.holds now.sys ((fileName root).getD []) index.writtenNs = true ∧
      ∃ p, ValidPath p ∧ record.rel = render p ∧ ∀ q, q <+: p → q ≠ p →
        ∃ mtime, Record.dir (render q) mtime ∈ outcome.fresh := by
  obtain ⟨-, threads, hpass⟩ := id hvalidates
  obtain ⟨hmem, hholds, hborne⟩ :=
    ((mem_outcome_iff h.represents (fun _ => h.exists_path) hpass).1 record).mp hrecord
  obtain ⟨p, hp, hrel⟩ := h.exists_path hmem
  rw [hrel, components_render hp] at hborne
  exact ⟨hmem, hholds, p, hp, hrel, h.exists_fresh_above hvalidates hp hborne⟩

/-- What the pass hands back was recorded and does not hold, and above it lie directories that the
pass keeps. -/
lemma of_mem_stale (hvalidates : index.Validates now root outcome) {rel : Bytes}
    (hrel : rel ∈ outcome.stale) :
    ∃ record ∈ records, record.rel = rel ∧
      record.holds now.sys ((fileName root).getD []) index.writtenNs = false ∧
      ∃ p, ValidPath p ∧ rel = render p ∧ ∀ q, q <+: p → q ≠ p →
        ∃ mtime, Record.dir (render q) mtime ∈ outcome.fresh := by
  obtain ⟨-, threads, hpass⟩ := id hvalidates
  obtain ⟨record, hmem, rfl, hnot, hborne⟩ :=
    ((mem_outcome_iff h.represents (fun _ => h.exists_path) hpass).2 rel).mp hrel
  obtain ⟨p, hp, hrel⟩ := h.exists_path hmem
  rw [hrel, components_render hp] at hborne
  exact ⟨record, hmem, rfl, hnot, p, hp, hrel, h.exists_fresh_above hvalidates hp hborne⟩

end Index.Recalls

/-- The index of a bare root has nothing but the root to keep or to hand back. -/
lemma Index.Validates.of_bare (hvalidates : index.Validates now root outcome)
    (h : Represents index.entries [.repo []]) :
    (∀ record ∈ outcome.fresh, record = .repo []) ∧ ∀ rel ∈ outcome.stale, rel = [] := by
  obtain ⟨-, threads, hpass⟩ := hvalidates
  have hpaths : ∀ record ∈ [Record.repo []], ∃ p, ValidPath p ∧ record.rel = render p := by
    intro record hmem
    obtain rfl := List.mem_singleton.mp hmem
    exact ⟨[], validPath_nil, rfl⟩
  obtain ⟨hfresh, hstale⟩ := mem_outcome_iff h hpaths hpass
  refine ⟨fun record hrecord => List.mem_singleton.mp ((hfresh record).mp hrecord).1,
    fun rel hrel => ?_⟩
  obtain ⟨record, hmem, rfl, -⟩ := (hstale rel).mp hrel
  obtain rfl := List.mem_singleton.mp hmem
  rfl

/-! ## What a directory's mtime is evidence of -/

/-- An object whose type is that of a symlink is a link. -/
lemma Node.exists_link_of_fileType {n : Node} (h : n.fileType = .symlink) :
    ∃ attr resolve, n = .link attr resolve := by
  cases n with
  | link attr resolve => exact ⟨attr, resolve, rfl⟩
  | file attr fileType plain => exact absurd h plain.2.1
  | dir attr r x entries => cases h

/-- An object whose type is that of a directory is a directory. -/
lemma Node.exists_dir_of_fileType {n : Node} (h : n.fileType = .directory) :
    ∃ attr r x entries, some n = some (.dir attr r x entries) := by
  cases n with
  | dir attr r x entries => exact ⟨attr, r, x, entries, rfl⟩
  | file attr fileType plain => exact absurd h plain.1
  | link attr resolve => cases h

/-- What is no symlink is found as it is. -/
lemma Node.find_nil_of_fileType {n : Node} (h : n.fileType ≠ .symlink) :
    n.find true [] = .ok n.stat := by
  cases n with
  | link attr resolve => exact absurd rfl h
  | _ => rfl

namespace Tree

/-- The names of a directory's entries, whether `readdir` reports their types, and the types. -/
def entryTypes (entries : List (Bytes × Bool × Node)) : List (Bytes × Bool × FileType) :=
  entries.map fun e => (e.1, e.2.1, e.2.2.fileType)

/-- A directory whose entries kept their names and types. -/
def SameEntries (before now : Tree) (p : List Bytes) : Prop :=
  ∃ attr r x entries attr' r' x' entries', before.root.at? p = some (.dir attr r x entries) ∧
    now.root.at? p = some (.dir attr' r' x' entries') ∧
      (entryTypes entries).Perm (entryTypes entries')

/-- A directory whose entries kept their names and types, and whose permissions are the same. -/
def Unchanged (before now : Tree) (p : List Bytes) : Prop :=
  ∃ attr attr' r x entries entries', before.root.at? p = some (.dir attr r x entries) ∧
    now.root.at? p = some (.dir attr' r x entries') ∧ attr.mode = attr'.mode ∧
    (entryTypes entries).Perm (entryTypes entries')

section Entries

variable {p : List Bytes} {entries entries' : List (Bytes × Bool × Node)}
  {e : Bytes × Bool × Node}

/-- An entry that was there is still there, with its type. -/
lemma exists_of_entryTypes (hperm : (entryTypes entries).Perm (entryTypes entries'))
    (he : e ∈ entries) : ∃ e' ∈ entries', e'.1 = e.1 ∧ e'.2.1 = e.2.1 ∧
      e'.2.2.fileType = e.2.2.fileType := by
  have hmem : (e.1, e.2.1, e.2.2.fileType) ∈ entryTypes entries' :=
    hperm.mem_iff.mp (List.mem_map_of_mem he)
  obtain ⟨e', he', heq⟩ := List.mem_map.mp hmem
  simp only [Prod.mk.injEq] at heq
  exact ⟨e', he', heq⟩

/-- The entry with a name is found by it. -/
lemma find?_eq_some_of_mem {entries : List (Bytes × Bool × Node)}
    (hdistinct : (entries.map Prod.fst).Nodup) {e : Bytes × Bool × Node} (he : e ∈ entries) :
    (entries.find? fun d => d.1 = e.1) = some e := by
  obtain ⟨d, hfind⟩ := Option.isSome_iff_exists.mp
    (List.find?_isSome.mpr ⟨e, he, by simp⟩ : (entries.find? fun d => d.1 = e.1).isSome = true)
  rw [hfind, List.inj_on_of_nodup_map hdistinct (List.mem_of_find?_eq_some hfind) he
    (by simpa using List.find?_some hfind)]

end Entries

end Tree

end Scap
