import Scap.Index.Records

/-!
# The index refines the walk

A run of `list_root` finds exactly what a walk of the whole root finds, in every world that
mutations and earlier runs lead to (`list_root_refines_walk_root`).  Along a run of the world every
stored index remembers the tree it was written from (`World.Sound`), so that one validation pass
after the other meets the conditions of `Validation`.
-/

namespace Scap

/-! ## Complete listings -/

/-- `found` is what a complete listing of a root that is a directory finds. -/
def Tree.Complete (wildmatch : Bytes → Bytes → Bool) (exclude : List Bytes) (t : Tree)
    (root : Bytes) (found : List Record) : Prop :=
  if isBareRoot root then found = [.repo []]
  else (found.map Record.rel).Nodup ∧
    ∀ record, record ∈ found ↔ ∃ p, t.FoundAt wildmatch exclude p record

section Complete

variable {wildmatch : Bytes → Bytes → Bool} {exclude : List Bytes} {t : Tree} {root : Bytes}
  {found found' : List Record}

namespace Tree.Complete

/-- Records are complete in any order. -/
lemma perm (h : t.Complete wildmatch exclude root found) (hperm : found'.Perm found) :
    t.Complete wildmatch exclude root found' := by
  unfold Tree.Complete at h ⊢
  split_ifs at h ⊢ with hbare
  · subst h
    exact List.perm_singleton.mp hperm
  · exact ⟨(hperm.map _).nodup_iff.mpr h.1, fun record => by rw [hperm.mem_iff, h.2]⟩

/-- Every record lies at a path of the tree, and no two at one path. -/
lemma nodup (h : t.Complete wildmatch exclude root found) : (found.map Record.rel).Nodup := by
  unfold Tree.Complete at h
  split_ifs at h
  · subst h
    exact List.nodup_singleton _
  · exact h.1

/-- A record is about an object of the tree. -/
lemma exists_path (h : t.Complete wildmatch exclude root found) {record : Record}
    (hrecord : record ∈ found) : ∃ p n, t.root.at? p = some n ∧ record.rel = render p := by
  unfold Tree.Complete at h
  split_ifs at h
  · subst h
    obtain rfl : record = .repo [] := by simpa using hrecord
    exact ⟨[], t.root, by simp, rfl⟩
  · obtain ⟨p, hp⟩ := (h.2 record).mp hrecord
    rcases hp.2 with ⟨⟨_, _, _, _, hat⟩ | ⟨⟨_, _, hat⟩, -⟩, -⟩ | ⟨-, _, _, _, _, hat, -⟩ <;>
      exact ⟨p, _, hat, hp.rel_eq⟩

/-- What is recorded below a directory is recorded below no repository. -/
lemma parent_not_repo (h : t.Complete wildmatch exclude root found) {record parent : Record}
    (hrecord : record ∈ found) (hne : record.rel ≠ []) (hparent : parent ∈ found)
    (hrel : parent.rel = parentOf record.rel) : parent.mtimeNs ≠ none := by
  unfold Tree.Complete at h
  split_ifs at h
  · subst h
    obtain rfl : record = .repo [] := by simpa using hrecord
    exact absurd rfl hne
  · intro hrepo
    obtain ⟨p, hp⟩ := (h.2 record).mp hrecord
    obtain ⟨q, hq⟩ := (h.2 parent).mp hparent
    rcases List.eq_nil_or_concat' p with rfl | ⟨p, name, rfl⟩
    · exact hne hp.rel_eq
    · obtain ⟨hvalid, hname⟩ := validPath_append.mp hp.validPath
      rw [validPath_singleton] at hname
      rw [hq.rel_eq, hp.rel_eq, render_append_singleton, parentOf_joinRel hname.noSlash] at hrel
      obtain rfl := render_injective hq.validPath hvalid hrel
      have hparentRepo : parent = .repo (render q) := by
        rw [← hq.rel_eq, Record.repo, ← hrepo]
      rw [hparentRepo, Tree.foundAt_repo_iff] at hq
      exact (Tree.reached_append_singleton.mp hp.1).2.2.1 hq.2.1

/-- No repository is listed twice. -/
lemma nodup_reposOf (h : t.Complete wildmatch exclude root found) : (Tree.reposOf found).Nodup := by
  unfold Tree.Complete at h
  split_ifs at h
  · subst h
    exact List.nodup_singleton _
  · exact Scap.nodup_reposOf h.1 fun record hrecord => (h.2 record).mp hrecord

/-- Two complete listings list the same repositories. -/
lemma mem_reposOf_iff (h : t.Complete wildmatch exclude root found)
    (h' : t.Complete wildmatch exclude root found') {path : Bytes} :
    path ∈ Tree.reposOf found ↔ path ∈ Tree.reposOf found' := by
  unfold Tree.Complete at h h'
  split_ifs at h h'
  · rw [h, h']
  · simp only [Scap.Tree.mem_reposOf_iff, h.2, h'.2]

/-- As many records as a file can count. -/
lemma length_lt (h : t.Complete wildmatch exclude root found) (hfits : t.Fits) :
    found.length < 2 ^ 32 := by
  obtain ⟨paths, hlength, hpaths⟩ := hfits
  have hsub : found.map Record.rel ⊆ paths.map render := by
    intro rel hrel
    obtain ⟨record, hrecord, rfl⟩ := List.mem_map.mp hrel
    obtain ⟨p, n, hat, hrel⟩ := h.exists_path hrecord
    rw [hrel]
    exact List.mem_map_of_mem (hpaths p n hat).1
  have hle := (h.nodup.subperm hsub).length_le
  rw [List.length_map, List.length_map] at hle
  omega

end Tree.Complete

/-- A walk of a root that is a directory is complete. -/
lemma WalkRoot.complete (h : t.Plain) (hdir : t.IsDir []) (hnul : 0 ∉ root) {opts : WalkOptions}
    {result : Except WalkError RootListing} (hwalk : WalkRoot wildmatch t.host root opts result) :
    ∃ listing found, result = .ok listing ∧ listing.Finds opts found ∧
      t.Complete wildmatch opts.exclude root found := by
  cases hbare : isBareRoot root with
  | true =>
    obtain ⟨attr, r, x, entries, hroot⟩ := hdir
    rw [walkRoot_tree_iff wildmatch h.accessible (by simpa using hroot) hnul, if_pos hbare] at hwalk
    refine ⟨_, [.repo []], hwalk, ⟨.rfl, fun hrecord => ?_, rfl⟩, ?_⟩
    · simp [Out.emit, hrecord]
    · rw [Tree.Complete, if_pos hbare]
  | false =>
    obtain ⟨listing, found, hresult, hfinds, hnodup, hfound⟩ :=
        hwalk.finds h.accessible hdir hnul hbare
    refine ⟨listing, found, hresult, hfinds, ?_⟩
    rw [Tree.Complete, if_neg (by simp [hbare])]
    exact ⟨hnodup, hfound⟩

/-! ### Records -/

/-- What a complete listing records makes one tree. -/
lemma Tree.Complete.completeRecords (h : t.Complete wildmatch exclude root found)
    (hdir : t.IsDir []) : CompleteRecords found := by
  have hnodup := h.nodup
  have hsafe : ∀ record ∈ found, isSafeRel record.rel = true := by
    intro record hrecord
    obtain ⟨p, n, hat, hrel⟩ := h.exists_path hrecord
    rw [hrel]
    exact isSafeRel_render (Tree.validPath hat)
  unfold Tree.Complete at h
  split_ifs at h with hbare
  · subst h
    exact ⟨hnodup, hsafe, ⟨_, List.mem_cons_self, rfl⟩,
      fun record hrecord hne => absurd (by rw [List.mem_singleton.mp hrecord]; rfl) hne⟩
  · refine ⟨hnodup, hsafe, ?_, fun record hrecord hne => ?_⟩
    · obtain ⟨record, hfound⟩ := hdir.exists_foundAt Tree.reached_nil
      exact ⟨record, (h.2 record).mpr ⟨[], hfound⟩, hfound.rel_eq⟩
    · obtain ⟨p, hp⟩ := (h.2 record).mp hrecord
      rcases List.eq_nil_or_concat' p with rfl | ⟨p, name, rfl⟩
      · exact absurd hp.rel_eq hne
      · -- What is found at a path is reached through a directory that is recorded.
        obtain ⟨hreached, ⟨attr, r, x, entries, hat⟩, hrepo, -⟩ :=
          Tree.reached_append_singleton.mp hp.1
        have hname := validPath_singleton.mp (validPath_append.mp hp.validPath).2
        refine ⟨mtimeNs ⟨attr, .directory⟩, (h.2 _).mpr ⟨p, hreached, .inr ⟨hrepo, attr, r, x,
          entries, hat, ?_⟩⟩⟩
        rw [hp.rel_eq, render_append_singleton, parentOf_joinRel hname.noSlash]

/-- The index of a complete listing can be built. -/
lemma Tree.Complete.exists_build (h : t.Complete wildmatch exclude root found)
    (hdir : t.IsDir []) (hfits : t.Fits) {records : List Record} (hperm : records.Perm found)
    (now : Int64) (opts : WalkOptions) :
    ∃ index, build t.host.statRoot now root opts records = some index :=
  ⟨_, (h.completeRecords hdir).build_eq (h.length_lt hfits).le hperm t.root.stat now root opts⟩

/-- The index of a complete listing can be stored. -/
lemma Out.Finds.exists_store {opts : WalkOptions} {listing : RootListing}
    (h : listing.Finds { opts with record := true } found)
    (hcomplete : t.Complete wildmatch exclude root found) (hdir : t.IsDir []) (hfits : t.Fits)
    (now : Int64) : ∃ index,
      StoreIfComplete t.host root { opts with record := true } now listing (some index) := by
  obtain ⟨index, hbuild⟩ := hcomplete.exists_build hdir hfits (h.records rfl) now
    { opts with record := true }
  refine ⟨index, ?_⟩
  rw [StoreIfComplete, h.complete, if_neg Bool.false_ne_true]
  exact .inr hbuild.symm

end Complete

/-! ## Indexes and the trees they were written from -/

/-- `index` was written from a complete listing of `before`. -/
structure Index.Remembers (wildmatch : Bytes → Bytes → Bool) (root : Bytes) (before : Tree)
    (index : Index) : Prop where
  plain : before.Plain
  isDir : before.IsDir []
  wellFormed : index.WellFormed
  represents : Represents index.entries (index.entries.map Entry.toRecord)
  root_eq : index.root = root
  dev_eq : index.dev = before.root.attr.dev
  ino_eq : index.ino = before.root.attr.ino
  complete : before.Complete wildmatch index.exclude root (index.entries.map Entry.toRecord)

section Remembers

variable {wildmatch : Bytes → Bytes → Bool} {root : Bytes} {t : Tree} {opts : WalkOptions}
  {now : Int64} {file : Option Bytes} {result : Except WalkError RootListing}
    {stored : Option Index}

/-- The index built from a complete listing remembers the tree. -/
lemma remembers_of_build (h : t.Plain) (hdir : t.IsDir []) (hfits : t.Fits)
    (hroot : root.length < 2 ^ 32) (hcount : opts.exclude.length < 2 ^ 32)
    (hpattern : ∀ pattern ∈ opts.exclude, pattern.length < 2 ^ 32) {records : List Record}
    (hcomplete : t.Complete wildmatch opts.exclude root records) {index : Index}
    (hbuild : build t.host.statRoot now root opts records = some index) :
    index.Remembers wildmatch root t := by
  obtain ⟨hrepresents, stat, hstat, hrootEq, hdev, hino, -, hexclude⟩ :=
    build_represents hcomplete.nodup hbuild
  obtain rfl : t.root.stat = stat := Except.ok.inj hstat
  have hpath : ∀ record ∈ records, ∃ p n, t.root.at? p = some n ∧ record.rel = render p :=
    fun record => hcomplete.exists_path
  refine ⟨h, hdir, ?_, { hrepresents with perm := .refl _ }, hrootEq, hdev, hino, ?_⟩
  · refine hrepresents.wellFormed (fun record hrecord => ?_)
      (fun record hrecord hne parent hparent => hcomplete.parent_not_repo hrecord hne hparent)
      (hrootEq ▸ hroot) (hexclude ▸ hcount) (hexclude ▸ hpattern) (hcomplete.length_lt hfits)
      fun record hrecord => ?_
    · obtain ⟨p, n, hat, hrel⟩ := hpath record hrecord
      rw [hrel]
      exact isSafeRel_render (Tree.validPath hat)
    · obtain ⟨p, n, hat, hrel⟩ := hpath record hrecord
      obtain ⟨paths, -, hpaths⟩ := hfits
      rw [hrel]
      exact (hpaths p n hat).2
  · rw [hexclude]
    exact hcomplete.perm hrepresents.perm

/-- A tree is evidence about an index that was written from another, if every directory whose entry
list has changed since shows another mtime. -/
lemma Index.Remembers.evidence {index : Index} {before : Tree}
    (h : index.Remembers wildmatch root before)
    (hmtime : ∀ p d d', before.root.at? p = some d → t.root.at? p = some d' →
      before.entryList p ≠ t.entryList p → mtimeNs d.stat ≠ mtimeNs d'.stat) :
    Evidence before index t := by
  intro p d d' hat hat' _ _ entry hentry hrel hrecorded _
  by_contra hchanged
  refine hmtime p d d' hat hat' hchanged ?_
  have hcomplete := h.complete
  unfold Tree.Complete at hcomplete
  split_ifs at hcomplete
  · -- A bare root is recorded as a repository, without an mtime.
    have hrecord : entry.toRecord = .repo [] :=
      List.mem_singleton.mp (hcomplete ▸ List.mem_map_of_mem hentry)
    exact absurd (hrecorded.symm.trans (congrArg Record.mtimeNs hrecord)) (by simp [Record.repo])
  · obtain ⟨q, hq⟩ := (hcomplete.2 _).mp (List.mem_map_of_mem hentry)
    obtain rfl : q = p :=
      render_injective hq.validPath (Tree.validPath hat) (hq.rel_eq.symm.trans hrel)
    rcases hq.2 with ⟨-, -, hrecord⟩ | ⟨-, attr, r, x, entries, hdir, hrecord⟩
    · exact absurd (hrecorded.symm.trans (congrArg Record.mtimeNs hrecord)) (by simp [Record.repo])
    · obtain rfl := Option.some.inj (hat.symm.trans hdir)
      have hmtimeNs : entry.mtimeNs = some (mtimeNs ⟨attr, .directory⟩) :=
        congrArg Record.mtimeNs hrecord
      exact Option.some.inj (hmtimeNs.symm.trans hrecorded)

/-- An index of a bare root is believed whole. -/
lemma walkIndex_bare {index : Index} (hwf : index.WellFormed) (hbare : isBareRoot root = true)
    (hentries : index.entries.map Entry.toRecord = [.repo []]) (sys : Sys) :
    walkIndex index (index.entries.map (probe sys ((fileName root).getD []))) =
      some ⟨[.repo []], [], 1, 0⟩ := by
  obtain ⟨entry, hentry, hrecord⟩ :
      ∃ entry, index.entries = [entry] ∧ entry.toRecord = .repo [] := by
    obtain ⟨entry, rest, hcons, hrecord, hnil⟩ := List.map_eq_cons_iff.mp hentries
    rw [List.map_eq_nil_iff] at hnil
    exact ⟨entry, hnil ▸ hcons, hrecord⟩
  obtain ⟨rel, mtime, children⟩ := entry
  obtain ⟨rfl, rfl⟩ : rel = [] ∧ mtime = none := by
    simpa [Entry.toRecord, Record.repo] using hrecord
  obtain rfl : children = [] := hwf.repo_childless ⟨[], none, children⟩ (by rw [hentry]; simp) rfl
  have hsuffix : dotGit <:+ (fileName root).getD [] := by
    unfold isBareRoot at hbare
    cases hname : fileName root with
    | none => simp [hname] at hbare
    | some name => simpa [hname] using hbare
  have hprobe : probe sys ((fileName root).getD []) ⟨[], none, []⟩ = .repo := by
    simp [probe, Entry.isRepo, hsuffix]
  simp [walkIndex, walkLoop, visitIndex, visitEntry, hentry, hprobe, Outcome.merge]

/-- A listing put together from complete records is complete. -/
lemma finds_fromRecords {found : List Record} (dirsRead excluded : ℕ) :
    (RootListing.fromRecords found dirsRead excluded false).Finds opts found :=
  ⟨.rfl, fun _ => .rfl, rfl⟩

/-- **One run** on a root that is a directory: what it returns is complete, whatever the index file
holds. -/
lemma ListRoot.complete (h : t.Plain) (hdir : t.IsDir []) (hnul : 0 ∉ root)
    (hfile : ∀ index, load file = some index → index.root = root →
      ∃ before, index.Remembers wildmatch root before ∧ Evidence before index t)
    (hlist : ListRoot wildmatch t.host root opts now file result stored) :
    ∃ listing found, result = .ok listing ∧ listing.Finds { opts with record := true } found ∧
      t.Complete wildmatch opts.exclude root found ∧
      StoreIfComplete t.host root { opts with record := true } now listing stored := by
  obtain ⟨cached, hcached, hlist⟩ := hlist
  -- Falling back to a walk of the whole root is always right.
  have hwalked : cached = .ok none → ∃ listing found, result = .ok listing ∧
      listing.Finds { opts with record := true } found ∧
      t.Complete wildmatch opts.exclude root found ∧
      StoreIfComplete t.host root { opts with record := true } now listing stored := by
    rintro rfl
    obtain ⟨hwalk, hstore⟩ := hlist
    obtain ⟨listing, found, rfl, hfinds, hcomplete⟩ := hwalk.complete h hdir hnul
    exact ⟨listing, found, rfl, hfinds, hcomplete, hstore⟩
  obtain ⟨attr, r, x, entries, hat⟩ := hdir
  have hroot : t.root = .dir attr r x entries := by simpa using hat
  have hopen : t.host.openRoot = .ok () := by
    have := (h.accessible _ _ _ _ _ hat).1
    simp [Tree.host, hroot, Node.openDir, this]
  have hfstat : t.host.fstatRoot = .ok t.root.stat := rfl
  have hsys : t.host.sys = t.sys := rfl
  rw [CachedListing, hopen, hfstat, hsys] at hcached
  cases hload : load file with
  | none =>
    rw [hload] at hcached
    exact hwalked hcached
  | some index =>
    rw [hload] at hcached
    simp only at hcached
    split at hcached
    · exact hwalked hcached
    · rename_i hdescribes
      obtain ⟨⟨⟨hrootEq, hdev⟩, hino⟩, hexclude⟩ :
          ((index.root = root ∧ index.dev = t.root.stat.dev) ∧
          index.ino = t.root.stat.ino) ∧ index.exclude = opts.exclude := by
        simpa [describes] using hdescribes
      obtain ⟨before, hremembers, hevidence⟩ := hfile index hload hrootEq
      obtain ⟨outcome, houtcome, hcached⟩ := hcached
      rw [probeAll_eq] at houtcome
      split at hcached
      · exact hwalked hcached
      obtain ⟨rewalked, hwalk, rfl⟩ := hcached
      cases hbare : isBareRoot root with
      | true =>
        have hcomplete := hremembers.complete
        rw [Tree.Complete, if_pos hbare] at hcomplete
        rw [walkIndex_bare hremembers.wellFormed hbare hcomplete, Option.some.injEq] at houtcome
        subst houtcome
        rw [WalkSubtrees, if_pos rfl] at hwalk
        subst hwalk
        refine ⟨_, [.repo []], hlist.1, finds_fromRecords .., ?_, hlist.2⟩
        rw [Tree.Complete, if_pos hbare]
      | false =>
        have hcomplete := hremembers.complete
        rw [Tree.Complete, if_neg (by simp [hbare])] at hcomplete
        have hsame : before.root.identity = t.root.identity := by
          obtain ⟨d, hd, hdir⟩ := Tree.isDir_iff.mp hremembers.isDir
          obtain rfl : before.root = d := by simpa using hd
          rw [Node.identity, Node.identity, ← hremembers.dev_eq, ← hremembers.ino_eq, hdev, hino,
            hdir, hroot]
          rfl
        have v : Validation wildmatch index before t ((fileName root).getD []) :=
          ⟨hremembers.plain, h, ⟨_, _, _, _, hat⟩, hsame, not_suffix_of_not_isBareRoot hbare,
            hremembers.wellFormed, hremembers.represents, hcomplete.2, hevidence⟩
        obtain ⟨listing, rfl, hincomplete, hnodup, hfound⟩ :=
          v.finds (show { opts with record := true }.exclude = _ from hexclude.symm) rfl hnul
            houtcome
            hwalk
        refine ⟨_, outcome.fresh ++ listing.records, hlist.1, ?_, ?_, hlist.2⟩
        · rw [hincomplete]
          exact finds_fromRecords ..
        · rw [Tree.Complete, if_neg (by simp [hbare]), ← hexclude]
          exact ⟨hnodup, hfound⟩

/-- Where the root path names no directory, a run lists nothing and stores nothing. -/
lemma ListRoot.of_not_walkable {host : Host} (hwalkable : rootIsWalkable host = false)
    (hopen : ∃ err, host.openRoot = .error err) (hnul : 0 ∉ root)
    (hlist : ListRoot wildmatch host root opts now file result stored) :
    result = .ok Out.new ∧ stored = none := by
  obtain ⟨err, hopen⟩ := hopen
  obtain ⟨cached, hcached, hlist⟩ := hlist
  obtain rfl : cached = .ok none := by
    rw [CachedListing, hopen] at hcached
    cases hload : load file <;> simpa [hload] using hcached
  obtain ⟨hwalk, hstore⟩ := hlist
  rw [WalkRoot, if_neg hnul, hwalkable] at hwalk
  obtain rfl : result = .ok Out.new := by simpa using hwalk
  refine ⟨rfl, ?_⟩
  have hbuild : build host.statRoot now root { opts with record := true } Out.new.records =
      none := by
    cases hstat : host.statRoot.toOption <;>
      simp [build, hstat, sortRecords, Out.new]
  have hstore : stored = none ∨ stored = build host.statRoot now root { opts with record := true }
      Out.new.records := hstore
  exact hstore.elim id fun hstored => hstored.trans hbuild

/-! ## A run always ends -/

/-- A run may store nothing. -/
lemma storeIfComplete_none (host : Host) (root : Bytes) (opts : WalkOptions) (now : Int64)
    (listing : RootListing) : StoreIfComplete host root opts now listing none := by
  unfold StoreIfComplete
  split
  · rfl
  · exact .inl rfl

/-- Every result of `cached_listing` lets the run end. -/
lemma exists_listRoot {host : Host} (hcached : ∃ cached, CachedListing wildmatch host root
      { opts with record := true } file cached)
    (hwalk : ∃ result, WalkRoot wildmatch host root { opts with record := true } result) :
    ∃ result stored, ListRoot wildmatch host root opts now file result stored := by
  obtain ⟨cached, hcached⟩ := hcached
  obtain ⟨result, hwalk⟩ := hwalk
  match cached with
  | .error err => exact ⟨.error err, none, _, hcached, rfl, rfl⟩
  | .ok (some listing) =>
    exact ⟨.ok listing, none, _, hcached, rfl, storeIfComplete_none ..⟩
  | .ok none =>
    refine ⟨result, none, _, hcached, hwalk, ?_⟩
    cases result with
    | error err => rfl
    | ok listing => exact storeIfComplete_none ..

/-- A run on a directory ends: the pass over what the file decodes to does, and so do the walks. -/
lemma ListRoot.exists_tree (h : t.Accessible) (hdir : t.IsDir []) (hnul : 0 ∉ root) :
    ∃ result stored, ListRoot wildmatch t.host root opts now file result stored := by
  obtain ⟨attr, r, x, entries, hat⟩ := hdir
  have hroot : t.root = .dir attr r x entries := by simpa using hat
  refine exists_listRoot ?_ (WalkRoot.exists_tree wildmatch h hroot hnul)
  unfold CachedListing
  split
  · rename_i index stat hload _ _
    split
    · exact ⟨_, rfl⟩
    · have hwf : index.WellFormed := by
        obtain ⟨bytes, -, hdecode⟩ := Option.bind_eq_some_iff.mp hload
        exact (Index.decode_eq_some_iff.mp hdecode).1
      obtain ⟨visited, -, -, -, houtcome⟩ := walkIndex_eq hwf.linked
        (probeAll t.host.sys ((fileName root).getD []) index opts.threads) (by simp [probeAll_eq])
      by_cases hstale : [] ∈ ((visited.map (concludes index (probeAll t.host.sys
          ((fileName root).getD []) index opts.threads))).foldr Outcome.merge {}).stale
      · exact ⟨.ok none, _, houtcome, by rw [if_pos hstale]⟩
      · obtain ⟨rewalked, hwalk⟩ := WalkSubtrees.exists_tree wildmatch
          { opts with record := true } h hroot hnul _
        exact ⟨_, _, houtcome, by rw [if_neg hstale]; exact ⟨rewalked, hwalk, rfl⟩⟩
  · exact ⟨_, rfl⟩

/-- A run on a root that cannot be opened ends. -/
lemma ListRoot.exists_of_not_walkable {host : Host} (hwalkable : rootIsWalkable host = false)
    (hopen : ∃ err, host.openRoot = .error err) (hnul : 0 ∉ root) :
    ∃ result stored, ListRoot wildmatch host root opts now file result stored := by
  obtain ⟨err, hopen⟩ := hopen
  refine exists_listRoot ⟨.ok none, ?_⟩ ⟨.ok Out.new, ?_⟩
  · rw [CachedListing, hopen]
    cases load file <;> rfl
  · rw [WalkRoot, if_neg hnul, hwalkable]
    rfl

/-- A run on a directory that reads no index can store one of what is there. -/
lemma ListRoot.exists_stored (h : t.Plain) (hdir : t.IsDir []) (hfits : t.Fits) (hnul : 0 ∉ root)
    (hroot : root.length < 2 ^ 32) (opts : WalkOptions) (hcount : opts.exclude.length < 2 ^ 32)
    (hpattern : ∀ pattern ∈ opts.exclude, pattern.length < 2 ^ 32) (now : Int64) :
    ∃ result index, ListRoot wildmatch t.host root opts now none result (some index) ∧
      index.Remembers wildmatch root t := by
  have hnone : CachedListing wildmatch t.host root { opts with record := true } none
      (.ok none) := by
    simp [CachedListing, load]
  obtain ⟨walked, hwalk⟩ : ∃ walked,
      WalkRoot wildmatch t.host root { opts with record := true } walked := by
    obtain ⟨attr, r, x, entries, hat⟩ := hdir
    exact WalkRoot.exists_tree wildmatch h.accessible (by simpa using hat) hnul
  obtain ⟨listing, found, rfl, hfinds, hcomplete⟩ := hwalk.complete h hdir hnul
  obtain ⟨index, hstore⟩ := hfinds.exists_store hcomplete hdir hfits now
  refine ⟨_, index, ⟨_, hnone, hwalk, hstore⟩, ?_⟩
  rw [StoreIfComplete, hfinds.complete, if_neg Bool.false_ne_true] at hstore
  exact remembers_of_build h hdir hfits hroot hcount hpattern
    (hcomplete.perm (hfinds.records rfl)) (hstore.resolve_left (by simp)).symm

end Remembers

/-! ## Runs of the world -/

/-- The root path names a directory, or nothing a walk could read. -/
lemma hostOf_cases (tree : Option Tree) : (∃ t, tree = some t ∧ t.IsDir []) ∨
    rootIsWalkable (hostOf tree) = false ∧ ∃ err, (hostOf tree).openRoot = .error err := by
  cases tree with
  | none => exact .inr ⟨rfl, .NOENT, rfl⟩
  | some t =>
    cases hroot : t.root with
    | dir attr r x entries => exact .inl ⟨t, rfl, attr, r, x, entries, by simp [hroot]⟩
    | file attr fileType plain =>
      refine .inr ⟨?_, .NOTDIR, ?_⟩
      · simp [hostOf, rootIsWalkable, Tree.host, hroot, Node.stat, Node.fileType, plain.1]
      · simp [hostOf, Tree.host, hroot, Node.openDir]
    | link attr resolve => exact absurd hroot (t.resolved attr resolve)

/-- A tree is evidence about itself. -/
lemma Evidence.refl (t : Tree) (index : Index) : Evidence t index t :=
  fun _ _ _ _ _ _ _ _ _ _ _ _ => rfl

namespace World

variable {wildmatch : Bytes → Bytes → Bool} {root : Bytes} {w w' : World}

/-- Every index written so far remembers the tree it was written from and is still backed by
evidence, and a file that holds an index of this root holds one of these. -/
structure Sound (wildmatch : Bytes → Bytes → Bool) (root : Bytes) (w : World) : Prop where
  admits : Admits w.tree
  remembers : ∀ s ∈ w.written, s.2.Remembers wildmatch root s.1
  evidence : ∀ s ∈ w.written, ∀ t ∈ w.tree, Evidence s.1 s.2 t
  file : ∀ index, load w.file = some index → index.root = root →
    ∃ before, (before, index) ∈ w.written

/-- A world without an index is sound. -/
lemma Initial.sound (h : Initial root w) : w.Sound wildmatch root := by
  obtain ⟨hadmits, hforeign, hwritten⟩ := h
  exact ⟨hadmits, by simp [hwritten], by simp [hwritten],
    fun index hload hroot => absurd hroot (hforeign index hload)⟩

/-- Storing no index changes nothing. -/
@[simp] lemma store_none (w : World) : w.store none = w := by
  cases w.tree <;> simp [store]

/-- What a run knows about the index file it reads. -/
lemma Sound.remembers_file (h : w.Sound wildmatch root) {t : Tree} (ht : w.tree = some t)
    {file : Option Bytes} (hfile : file = w.file ∨ file = none) (index : Index)
    (hload : load file = some index) (hroot : index.root = root) :
    ∃ before, index.Remembers wildmatch root before ∧ Evidence before index t := by
  rcases hfile with rfl | rfl
  · obtain ⟨before, hmem⟩ := h.file index hload hroot
    exact ⟨before, h.remembers _ hmem, h.evidence _ hmem t ht⟩
  · simp [load] at hload

/-- Storing the index of a complete listing. -/
lemma Sound.store (h : w.Sound wildmatch root) {t : Tree} (ht : w.tree = some t) {index : Index}
    (hremembers : index.Remembers wildmatch root t) :
    (w.store (some index)).Sound wildmatch root := by
  have hwritten : (w.store (some index)).written = (t, index) :: w.written := by
    simp [World.store, ht]
  have hload : load (w.store (some index)).file = some index := by
    simp [World.store, load, hremembers.wellFormed.decode_encode]
  refine ⟨h.admits, ?_, ?_, fun index' hload' _ => ?_⟩
  · rw [hwritten]
    exact List.forall_mem_cons.mpr ⟨hremembers, h.remembers⟩
  · rw [hwritten]
    refine List.forall_mem_cons.mpr ⟨fun u hu => ?_, h.evidence⟩
    obtain rfl : t = u := Option.some.inj (ht.symm.trans hu)
    exact Evidence.refl t index
  · obtain rfl := Option.some.inj (hload.symm.trans hload')
    exact ⟨t, by rw [hwritten]; simp⟩

/-- Every step keeps the world sound. -/
lemma Sound.step (hnul : 0 ∉ root) (hlength : root.length < 2 ^ 32) (h : w.Sound wildmatch root)
    (hstep : Step wildmatch root w w') : w'.Sound wildmatch root := by
  cases hstep with
  | mutate tree hadmits hevidence =>
    exact ⟨hadmits, h.remembers, fun s hs t ht => hevidence t ht s hs, h.file⟩
  | lose file hforeign =>
    exact ⟨h.admits, h.remembers, h.evidence,
      fun index hload hroot => absurd hroot (hforeign index hload)⟩
  | list opts now file result stored hcount hpattern hfile hlist =>
    rcases hostOf_cases w.tree with ⟨t, ht, hdir⟩ | ⟨hwalkable, hopen⟩
    · obtain ⟨hplain, hfits⟩ := h.admits t ht
      rw [ht] at hlist
      obtain ⟨listing, found, -, hfinds, hcomplete, hstore⟩ :=
        hlist.complete hplain hdir hnul (h.remembers_file ht hfile)
      rw [StoreIfComplete, hfinds.complete, if_neg Bool.false_ne_true] at hstore
      cases stored with
      | none => rwa [store_none]
      | some index =>
        have hbuild := (hstore.resolve_left (by simp)).symm
        exact h.store ht (remembers_of_build hplain hdir hfits hlength hcount hpattern
          (hcomplete.perm (hfinds.records rfl)) hbuild)
    · obtain ⟨-, rfl⟩ := hlist.of_not_walkable hwalkable hopen hnul
      rwa [store_none]

/-- Every world a run reaches is sound. -/
lemma Reachable.sound (hnul : 0 ∉ root) (hlength : root.length < 2 ^ 32)
    (h : w.Reachable wildmatch root) : w.Sound wildmatch root :=
  Transition.Reachable.invariant (fun _ hinit => hinit.sound)
    (fun _ _ _ hsound hstep => hsound.step hnul hlength hstep) h

end World

/-- In every world that mutations of the tree, losses of the index file and runs of `list_root` lead
to, a run of `list_root` can return, and whatever it returns lists every repository once: exactly
those that `walk_root` lists on the same tree under the same exclusions. -/
theorem list_root_refines_walk_root (wildmatch : Bytes → Bytes → Bool) (root : Bytes)
    (hnul : 0 ∉ root) (hlength : root.length < 2 ^ 32) (w : World)
    (hw : w.Reachable wildmatch root) (opts : WalkOptions) (now : Int64) (file : Option Bytes)
    (hfile : file = w.file ∨ file = none) :
    (∃ result stored, ListRoot wildmatch (hostOf w.tree) root opts now file result stored) ∧
      ∀ result stored, ListRoot wildmatch (hostOf w.tree) root opts now file result stored →
        ∃ listing, result = .ok listing ∧ listing.arena.Nodup ∧
          (∃ walked, WalkRoot wildmatch (hostOf w.tree) root opts walked) ∧
          ∀ opts' walked, opts'.exclude = opts.exclude →
            WalkRoot wildmatch (hostOf w.tree) root opts' walked →
            ∃ fresh, walked = .ok fresh ∧ ∀ path, path ∈ listing.arena ↔ path ∈ fresh.arena := by
  have hsound := hw.sound hnul hlength
  rcases hostOf_cases w.tree with ⟨t, ht, hdir⟩ | ⟨hwalkable, hopen⟩
  · obtain ⟨hplain, -⟩ := hsound.admits t ht
    have hfiles := hsound.remembers_file ht hfile
    rw [ht]
    refine ⟨ListRoot.exists_tree hplain.accessible hdir hnul, fun result stored hlist => ?_⟩
    obtain ⟨listing, found, rfl, hfinds, hcomplete, -⟩ := hlist.complete hplain hdir hnul hfiles
    have hwalks : ∃ walked, WalkRoot wildmatch t.host root opts walked := by
      obtain ⟨attr, r, x, entries, hat⟩ := hdir
      exact WalkRoot.exists_tree wildmatch hplain.accessible (by simpa using hat) hnul
    refine ⟨listing, rfl, hfinds.arena.nodup_iff.mpr hcomplete.nodup_reposOf, hwalks, ?_⟩
    intro opts' walked hexclude hwalk
    obtain ⟨fresh, found', rfl, hfinds', hcomplete'⟩ := hwalk.complete hplain hdir hnul
    rw [hexclude] at hcomplete'
    refine ⟨fresh, rfl, fun path => ?_⟩
    rw [hfinds.arena.mem_iff, hfinds'.arena.mem_iff, hcomplete.mem_reposOf_iff hcomplete']
  · have hwalks : ∀ opts' walked, WalkRoot wildmatch (hostOf w.tree) root opts' walked ↔
        walked = .ok Out.new := fun opts' walked => by
      rw [WalkRoot, if_neg hnul, hwalkable]
      exact Iff.rfl
    refine ⟨ListRoot.exists_of_not_walkable hwalkable hopen hnul, fun result stored hlist => ?_⟩
    obtain ⟨rfl, -⟩ := hlist.of_not_walkable hwalkable hopen hnul
    refine ⟨Out.new, rfl, List.nodup_nil, ⟨_, (hwalks ..).mpr rfl⟩, fun opts' walked _ hwalk => ?_⟩
    exact ⟨Out.new, (hwalks ..).mp hwalk, fun path => Iff.rfl⟩

/-! ## A sample world -/

/-- Names of bare repositories, each with the number of an inode. -/
def BareNames (repos : List (Bytes × UInt64)) : Prop :=
  (repos.map Prod.fst).Nodup ∧ repos.length + 1 < 2 ^ 32 ∧
    ∀ e ∈ repos, ValidName e.1 ∧ dotGit <:+ e.1 ∧ e.1 ≠ dotGit ∧ e.1.length < 2 ^ 32

instance (repos : List (Bytes × UInt64)) : Decidable (BareNames repos) :=
  inferInstanceAs (Decidable (_ ∧ _ ∧ _))

/-- A root that holds these bare repositories, with its mtime. -/
def flatNode (mtime : Int64) (repos : List (Bytes × UInt64)) : Node :=
  .dir ⟨1, 2, 0o755, mtime, 0⟩ true true (repos.map fun e => (e.1, true, sampleDir e.2 []))

section Flat

variable {mtime : Int64} {repos : List (Bytes × UInt64)}

/-- The objects of the root are the root itself and its repositories, which are empty. -/
lemma at?_flatNode {p : List Bytes} {n : Node} (h : (flatNode mtime repos).at? p = some n) :
    p = [] ∧ n = flatNode mtime repos ∨ ∃ e ∈ repos, p = [e.1] ∧ n = sampleDir e.2 [] := by
  cases p with
  | nil => exact .inl ⟨rfl, by simpa using h.symm⟩
  | cons name p =>
    obtain ⟨m, hm, h⟩ := Option.bind_eq_some_iff.mp h
    obtain ⟨entry, hentry, rfl, rfl⟩ := Node.exists_mem_of_lookup hm
    obtain ⟨e, he, rfl⟩ := List.mem_map.mp hentry
    cases p with
    | nil => exact .inr ⟨e, he, rfl, by simpa using h.symm⟩
    | cons name p => exact absurd h (by simp [Node.at?, sampleDir, Node.lookup])

/-- The directories of the root are open to all, and their entries are the repositories or none. -/
lemma dir_flatNode {p : List Bytes} {attr : Attr} {r x : Bool}
    {entries : List (Bytes × Bool × Node)}
    (h : (flatNode mtime repos).at? p = some (.dir attr r x entries)) :
    (r = true ∧ x = true ∧ attr.mode &&& 0o444 ≠ 0) ∧
      (entries = [] ∨ entries.map Prod.fst = repos.map Prod.fst) := by
  rcases at?_flatNode h with ⟨-, heq⟩ | ⟨e, -, -, heq⟩
  · obtain ⟨rfl, rfl, rfl, rfl⟩ := Node.dir.inj heq
    exact ⟨⟨rfl, rfl, by simp⟩, .inr (by simp)⟩
  · obtain ⟨rfl, rfl, rfl, rfl⟩ := Node.dir.inj heq
    exact ⟨⟨rfl, rfl, by simp⟩, .inl rfl⟩

/-- The root as a tree. -/
def flatTree (mtime : Int64) (repos : List (Bytes × UInt64)) (h : BareNames repos) : Tree where
  root := flatNode mtime repos
  resolved := by simp [flatNode]
  distinct p attr r x entries hat := by
    rcases (dir_flatNode hat).2 with rfl | heq
    · exact List.nodup_nil
    · rw [heq]
      exact h.1
  valid p attr r x entries hat e he := by
    rcases (dir_flatNode hat).2 with rfl | heq
    · exact absurd he List.not_mem_nil
    · obtain ⟨e', he', hname⟩ := List.mem_map.mp (heq ▸ List.mem_map_of_mem he)
      exact hname ▸ (h.2.2 e' he').1

variable (mtime) (h : BareNames repos)

/-- A walk of the root may be recorded in an index. -/
lemma flatTree_admits : World.Admits (some (flatTree mtime repos h)) := by
  rintro _ ⟨⟩
  refine ⟨⟨fun p attr r x entries hat => (dir_flatNode hat).1, fun p attr resolve hat => ?_⟩,
    [] :: repos.map fun e => [e.1], by simpa using h.2.1, fun p n hat => ?_⟩
  · rcases at?_flatNode hat with ⟨-, heq⟩ | ⟨e, -, -, heq⟩ <;> simp [flatNode, sampleDir] at heq
  · rcases at?_flatNode hat with ⟨rfl, -⟩ | ⟨e, he, rfl, -⟩
    · exact ⟨List.mem_cons_self, by decide⟩
    · exact ⟨List.mem_cons_of_mem _ (List.mem_map_of_mem he), (h.2.2 e he).2.2.2⟩

/-- The root is a directory. -/
lemma flatTree_isDir : (flatTree mtime repos h).IsDir [] := ⟨_, _, _, _, rfl⟩

/-- A walk of the root finds each of the repositories. -/
lemma mem_arena_flatTree {root : Bytes} (hnul : 0 ∉ root) (hbare : isBareRoot root = false)
    {opts : WalkOptions} (hexclude : opts.exclude = []) {listing : RootListing}
    (hwalk : WalkRoot (fun _ _ => false) (flatTree mtime repos h).host root opts (.ok listing))
    {e : Bytes × UInt64} (he : e ∈ repos) : e.1 ∈ listing.arena := by
  obtain ⟨hplain, -⟩ := flatTree_admits mtime h _ rfl
  have hdir := flatTree_isDir mtime h
  have hentry : (e.1, true, sampleDir e.2 []) ∈
      repos.map fun e => (e.1, true, sampleDir e.2 []) := List.mem_map_of_mem he
  have hroot : (flatTree mtime repos h).root.at? [] = some (flatNode mtime repos) := rfl
  have hat := Tree.at?_entry hroot hentry
  have hnotRepo : ¬(flatTree mtime repos h).IsRepo [] := by
    rw [hplain.isRepo_iff hdir]
    rintro (hname | hgit)
    · exact Tree.not_bareName_nil hname
    · obtain ⟨n, hn⟩ := Option.isSome_iff_exists.mp ((Option.isSome_map ..).symm.trans hgit)
      rcases at?_flatNode hn with ⟨hnil, -⟩ | ⟨e', he', hname, -⟩
      · cases hnil
      · exact (h.2.2 e' he').2.2.1 (List.singleton_inj.mp hname).symm
  have hgit : (flatTree mtime repos h).hasGit [] = false := Tree.hasGit_eq_false hnotRepo
  obtain ⟨_, found, heq, hfinds, -, hfound⟩ := hwalk.finds hplain.accessible hdir hnul hbare
  obtain rfl := Except.ok.inj heq
  rw [hfinds.arena.mem_iff, Tree.mem_reposOf_found_iff hdir hbare hfound, Tree.Listed,
    if_neg (by simp [hbare, hgit])]
  refine ⟨[] ++ [e.1], by simp, .inl ⟨_, _, _, _, hat⟩,
    .inl (Tree.bareName_append_singleton.mpr (h.2.2 e he).2.1), ?_, rfl⟩
  exact Tree.reached_append_singleton.mpr
    ⟨Tree.reached_nil, hdir, hnotRepo, by rw [hexclude]; rfl⟩

/-- A root with other repositories and another mtime is evidence about any index of it. -/
lemma flatTree_evidence {wildmatch : Bytes → Bytes → Bool} {root : Bytes} {index : Index}
    (hremembers : index.Remembers wildmatch root (flatTree mtime repos h)) {mtime' : Int64}
    {repos' : List (Bytes × UInt64)} (h' : BareNames repos')
    (hne : mtimeNs (flatNode mtime repos).stat ≠ mtimeNs (flatNode mtime' repos').stat) :
    Evidence (flatTree mtime repos h) index (flatTree mtime' repos' h') := by
  refine hremembers.evidence fun p d d' hat hat' hchanged => ?_
  rcases at?_flatNode hat with ⟨rfl, rfl⟩ | ⟨e, -, rfl, rfl⟩
  · obtain rfl : flatNode mtime' repos' = d' := Option.some.inj hat'
    exact hne
  · -- A repository is empty before and after.
    rcases at?_flatNode hat' with ⟨hnil, -⟩ | ⟨e', -, -, rfl⟩
    · cases hnil
    · refine absurd (funext fun name => ?_) hchanged
      rw [Tree.entryList, Tree.entryList, Node.at?_append, Node.at?_append, hat, hat']
      rfl

end Flat

/-- `a.git`. -/
def sampleName : Bytes := ascii ['a', '.', 'g', 'i', 't']

/-- `b.git`. -/
def laterName : Bytes := ascii ['b', '.', 'g', 'i', 't']

/-- A root with one bare repository. -/
def plainTree : Tree := flatTree 100 [(sampleName, 3)] (by decide)

/-- The root once another repository has been cloned into it. -/
def grownTree : Tree := flatTree 200 [(sampleName, 3), (laterName, 5)] (by decide)

/-- A run has stored an index, and another repository has come since. -/
lemma exists_grown_world : ∃ index, World.Reachable (fun _ _ => false) (ascii ['/', 'r'])
    ⟨some grownTree, some index.encode, [(plainTree, index)]⟩ := by
  have hinitial : World.Reachable (fun _ _ => false) (ascii ['/', 'r'])
      ⟨some plainTree, none, []⟩ :=
    Transition.Reachable.initial ⟨flatTree_admits _ _, by simp [World.Foreign, load], rfl⟩
  obtain ⟨result, index, hlist, hremembers⟩ : ∃ result index,
      ListRoot (fun _ _ => false) plainTree.host (ascii ['/', 'r']) ⟨2, [], .statFirst, false⟩ 5
        none result (some index) ∧
      index.Remembers (fun _ _ => false) (ascii ['/', 'r']) plainTree := by
    obtain ⟨hplain, hfits⟩ := flatTree_admits _ _ plainTree rfl
    exact ListRoot.exists_stored hplain (flatTree_isDir ..) hfits (by decide) (by decide) _
      (by decide) (by simp) 5
  have hstored : World.Reachable (fun _ _ => false) (ascii ['/', 'r'])
      ⟨some plainTree, some index.encode, [(plainTree, index)]⟩ :=
    hinitial.tail (.list _ 5 none result (some index) (by decide) (by simp) (.inl rfl) hlist)
  refine ⟨index, hstored.tail (.mutate (some grownTree) (flatTree_admits _ _) ?_)⟩
  rintro _ ⟨⟩ s hs
  obtain rfl := List.mem_singleton.mp hs
  exact flatTree_evidence _ _ hremembers _ (by decide)

/-- From an index that knows one repository, a run lists the other as well. -/
theorem list_root_refines_walk_root_sample : ∃ index listing stored,
    World.Reachable (fun _ _ => false) (ascii ['/', 'r'])
      ⟨some grownTree, some index.encode, [(plainTree, index)]⟩ ∧
    ListRoot (fun _ _ => false) (hostOf (some grownTree)) (ascii ['/', 'r'])
      ⟨2, [], .statFirst, false⟩ 5 (some index.encode) (.ok listing) stored ∧
    listing.arena.Nodup ∧ sampleName ∈ listing.arena ∧ laterName ∈ listing.arena := by
  obtain ⟨index, hreach⟩ := exists_grown_world
  obtain ⟨⟨result, stored, hlist⟩, hall⟩ := list_root_refines_walk_root (fun _ _ => false)
    (ascii ['/', 'r']) (by decide) (by decide) _ hreach ⟨2, [], .statFirst, false⟩ 5
    (some index.encode) (.inl rfl)
  obtain ⟨listing, rfl, hnodup, ⟨walked, hwalk⟩, hsame⟩ := hall result stored hlist
  obtain ⟨fresh, rfl, hmem⟩ := hsame _ walked rfl hwalk
  refine ⟨index, listing, stored, hreach, hlist, hnodup, (hmem _).mpr ?_, (hmem _).mpr ?_⟩
  · exact mem_arena_flatTree _ _ (by decide) (by decide) rfl hwalk List.mem_cons_self
  · exact mem_arena_flatTree _ _ (by decide) (by decide) rfl hwalk
      (List.mem_cons_of_mem _ List.mem_cons_self)

end Scap
