import Scap.Index.Refinement

/-!
# What validation believes

The outcome of the top-down pass, told from the records alone (`mem_outcome_iff`): a record is
believed when its own `stat` bears it out (`Record.holds`) and so does that of every directory above
it (`Borne`); the paths that go back to the walker are the first ones on their way down whose own
`stat` does not.  The tree that is probed is an arbitrary kernel here.
-/

namespace Scap

/-- Whether an entry's own `stat` bears out what was recorded. -/
def Record.holds (sys : Sys) (rootName : Bytes) (writtenNs : Int64) (record : Record) : Bool :=
  (visitEntry writtenNs record.toEntry (probe sys rootName record.toEntry)).1.stale.isEmpty

/-- Every directory above a path was recorded as one, and its own `stat` bears that out. -/
def Borne (sys : Sys) (rootName : Bytes) (writtenNs : Int64) (records : List Record)
    (p : List Bytes) : Prop :=
  ∀ q, q <+: p → q ≠ p → ∃ mtime, Record.dir (render q) mtime ∈ records ∧
    (Record.dir (render q) mtime).holds sys rootName writtenNs = true

/-- Where records are borne out along a path, they are along the beginning of it. -/
lemma Borne.of_prefix {sys : Sys} {rootName : Bytes} {writtenNs : Int64} {records : List Record}
    {p q : List Bytes} (h : Borne sys rootName writtenNs records p) (hq : q <+: p) :
    Borne sys rootName writtenNs records q := by
  intro q' hq' hne
  refine h q' (hq'.trans hq) ?_
  rintro rfl
  exact hne (hq'.eq_of_length_le hq.length_le)

/-! ## One entry -/

section Entry

variable {sys : Sys} {rootName : Bytes} {writtenNs : Int64} {entry : Entry}

/-- An entry's children play no part in whether it holds. -/
lemma holds_toRecord : entry.toRecord.holds sys rootName writtenNs =
    (visitEntry writtenNs entry (probe sys rootName entry)).1.stale.isEmpty := by
  have hprobe : probe sys rootName entry.toRecord.toEntry = probe sys rootName entry := rfl
  rw [Record.holds, hprobe]
  cases probe sys rootName entry with
  | repo => rfl
  | stale => rfl
  | dir observed =>
    simp only [visitEntry, Record.toEntry, Entry.toRecord]
    cases entry.mtimeNs with
    | none => rfl
    | some recorded => dsimp only; split_ifs <;> rfl

/-- An entry that holds is kept, and one that does not goes back to the walker; only a directory
that holds leads on. -/
lemma visitEntry_of_holds (sys : Sys) (rootName : Bytes) (writtenNs : Int64) (entry : Entry) :
    (entry.toRecord.holds sys rootName writtenNs = true ∧
      (visitEntry writtenNs entry (probe sys rootName entry)).1.fresh = [entry.toRecord] ∧
      (visitEntry writtenNs entry (probe sys rootName entry)).1.stale = [] ∧
      (visitEntry writtenNs entry (probe sys rootName entry)).2 =
        if entry.isRepo then [] else entry.childIndices) ∨
    (entry.toRecord.holds sys rootName writtenNs = false ∧
      (visitEntry writtenNs entry (probe sys rootName entry)).1.fresh = [] ∧
      (visitEntry writtenNs entry (probe sys rootName entry)).1.stale = [entry.rel] ∧
      (visitEntry writtenNs entry (probe sys rootName entry)).2 = []) := by
  rw [holds_toRecord]
  rcases visitEntry_cases writtenNs entry (probe sys rootName entry) with
    ⟨hprobe, hvisit⟩ | ⟨mtime, -, hmtime, -, hvisit⟩ | ⟨-, -, racy, hvisit⟩ <;> rw [hvisit]
  · have hrepo := isRepo_of_probe hprobe
    have hmtime : entry.mtimeNs = none := by simpa [Entry.isRepo] using hrepo
    exact .inl ⟨rfl, by simp [Entry.toRecord, Record.repo, hmtime], rfl, by rw [if_pos hrepo]⟩
  · have hrepo : entry.isRepo = false := by simp [Entry.isRepo, hmtime]
    refine .inl ⟨rfl, ?_, rfl, by rw [hrepo, if_neg Bool.false_ne_true]⟩
    simp [Entry.toRecord, Record.dir, hmtime]
  · exact .inr ⟨rfl, rfl, rfl, rfl⟩

/-- A recorded repository holds while its name or its `.git` makes it one. -/
lemma holds_repo_iff {t : Tree} {p : List Bytes} (hp : ValidPath p) (hname : ¬dotGit <:+ rootName) :
    (Record.repo (render p)).holds t.sys rootName writtenNs = true ↔ t.IsRepo p := by
  have hprobe : t.IsRepo p ∧ probe t.sys rootName (Record.repo (render p)).toEntry = .repo ∨
    ¬t.IsRepo p ∧ probe t.sys rootName (Record.repo (render p)).toEntry = .stale :=
      probe_repo hp hname rfl rfl
  rw [Record.holds]
  rcases hprobe with ⟨hrepo, hprobe⟩ | ⟨hnot, hprobe⟩ <;> rw [hprobe]
  · exact ⟨fun _ => hrepo, fun _ => rfl⟩
  · exact ⟨nofun, fun hrepo => absurd hrepo hnot⟩

end Entry

/-! ## The pass -/

section Pass

variable {sys : Sys} {rootName : Bytes} {index : Index} {records : List Record}

/-- What the pass concludes about an entry in range, and where it goes on. -/
lemma visitIndex_probed {i : ℕ} {entry : Entry} (hentry : index.entries[i]? = some entry) :
    visitIndex index (index.entries.map (probe sys rootName)) i =
      some (visitEntry index.writtenNs entry (probe sys rootName entry)) :=
  visitIndex_eq hentry (by rw [List.getElem?_map, hentry, Option.map_some])

/-- The pass goes on to an entry from its parent only, which is a directory that holds. -/
lemma mem_pushedBy_iff {i k : ℕ} {entry : Entry} (hentry : index.entries[i]? = some entry) :
    k ∈ pushedBy index (index.entries.map (probe sys rootName)) i ↔
      entry.toRecord.holds sys rootName index.writtenNs = true ∧ entry.isRepo = false ∧
        k ∈ entry.childIndices := by
  rw [pushedBy, visitIndex_probed hentry, Option.elim_some, List.mem_reverse]
  rcases visitEntry_of_holds sys rootName index.writtenNs entry with
    ⟨hholds, -, -, hpushed⟩ | ⟨hholds, -, -, hpushed⟩ <;> rw [hpushed, hholds]
  · cases entry.isRepo <;> simp
  · simp

/-- What the pass keeps of an entry it visits is its record, if that holds. -/
lemma mem_concludes_fresh_iff {i : ℕ} {entry : Entry} (hentry : index.entries[i]? = some entry)
    {record : Record} :
    record ∈ (concludes index (index.entries.map (probe sys rootName)) i).fresh ↔
      entry.toRecord = record ∧ record.holds sys rootName index.writtenNs = true := by
  rw [concludes, visitIndex_probed hentry, Option.elim_some]
  rcases visitEntry_of_holds sys rootName index.writtenNs entry with
    ⟨hholds, hfresh, -⟩ | ⟨hnot, hfresh, -⟩ <;> rw [hfresh]
  · rw [List.mem_singleton, eq_comm]
    exact ⟨fun h => ⟨h, h ▸ hholds⟩, And.left⟩
  · refine ⟨fun h => absurd h List.not_mem_nil, ?_⟩
    rintro ⟨rfl, hholds⟩
    simp [hnot] at hholds

/-- What goes back to the walker is the entry's path, if its record does not hold. -/
lemma mem_concludes_stale_iff {i : ℕ} {entry : Entry} (hentry : index.entries[i]? = some entry)
    {rel : Bytes} :
    rel ∈ (concludes index (index.entries.map (probe sys rootName)) i).stale ↔
      entry.rel = rel ∧ entry.toRecord.holds sys rootName index.writtenNs = false := by
  rw [concludes, visitIndex_probed hentry, Option.elim_some]
  rcases visitEntry_of_holds sys rootName index.writtenNs entry with
    ⟨hholds, -, hstale, -⟩ | ⟨hnot, -, hstale, -⟩ <;> rw [hstale]
  · simp [hholds]
  · simp [hnot, eq_comm]

/-- The pass visits an entry exactly when every directory above it holds. -/
lemma visited_iff (h : Represents index.entries records) {p : List Bytes} (hp : ValidPath p) {i : ℕ}
    {entry : Entry} (hentry : index.entries[i]? = some entry) (hrel : entry.rel = render p) :
    Relation.ReflTransGen
        (fun a b => b ∈ pushedBy index (index.entries.map (probe sys rootName)) a) 0 i ↔
      Borne sys rootName index.writtenNs records p := by
  obtain ⟨root, hroot, hrootRel⟩ := Option.map_eq_some_iff.mp h.root_rel
  rw [List.head?_eq_getElem?] at hroot
  induction p using List.reverseRecOn generalizing i entry with
  | nil =>
    obtain rfl := h.index_unique hroot hentry (hrootRel.trans hrel.symm)
    exact ⟨fun _ q hq hne => absurd (List.prefix_nil.mp hq) hne, fun _ => .refl⟩
  | append_singleton p name ih =>
    obtain ⟨hp', hname⟩ := validPath_append.mp hp
    rw [validPath_singleton] at hname
    rw [render_append_singleton] at hrel
    have hparentOf : parentOf entry.rel = render p := by rw [hrel, parentOf_joinRel hname.noSlash]
    have hpos : 0 < i := by
      refine Nat.pos_of_ne_zero ?_
      rintro rfl
      obtain rfl := Option.some.inj (hroot.symm.trans hentry)
      exact joinRel_ne_nil hname.nonempty (hrel.symm.trans hrootRel)
    constructor
    · intro hvisited
      rcases hvisited.cases_tail with heq | ⟨j, hj, hpush⟩
      · omega
      · obtain ⟨parent, hparent⟩ : ∃ parent, index.entries[j]? = some parent := by
          rcases pushedBy_eq index (index.entries.map (probe sys rootName)) j with hnil |
            ⟨parent, hparent, -⟩
          · exact absurd (hnil ▸ hpush) List.not_mem_nil
          · exact ⟨parent, hparent⟩
        obtain ⟨hholds, hdir, hchild⟩ := (mem_pushedBy_iff hparent).mp hpush
        have hparentRel : parent.rel = render p :=
          ((h.child_iff hparent hentry).mp hchild).2.symm.trans hparentOf
        obtain ⟨mtime, hmtime⟩ : ∃ mtime, parent.mtimeNs = some mtime :=
          Option.isSome_iff_exists.mp (by simpa [Entry.isRepo] using hdir)
        have hrecord : parent.toRecord = .dir (render p) mtime := by
          simp [Entry.toRecord, Record.dir, hparentRel, hmtime]
        intro q hq hne
        rcases List.prefix_concat_iff.mp hq with rfl | hq
        · exact absurd rfl hne
        · rcases eq_or_ne q p with rfl | hne'
          · refine ⟨mtime, ?_, hrecord ▸ hholds⟩
            rw [← hrecord]
            exact h.perm.mem_iff.mp (List.mem_map_of_mem (List.mem_of_getElem? hparent))
          · exact (ih hp' hparent hparentRel).mp hj q hq hne'
    · intro hborne
      obtain ⟨mtime, hmem, hholds⟩ := hborne p (List.prefix_append ..) (by simp)
      obtain ⟨parent, hparentMem, hrecord⟩ := List.mem_map.mp (h.perm.mem_iff.mpr hmem)
      obtain ⟨j, hparent⟩ := List.mem_iff_getElem?.mp hparentMem
      have hparentRel : parent.rel = render p := congrArg Record.rel hrecord
      have hdir : parent.isRepo = false := by
        have hmtime : parent.mtimeNs = some mtime := congrArg Record.mtimeNs hrecord
        simp [Entry.isRepo, hmtime]
      refine ((ih hp' hparent hparentRel).mpr (hborne.of_prefix (List.prefix_append ..))).tail
        ((mem_pushedBy_iff hparent).mpr
        ⟨by rwa [hrecord], hdir, ?_⟩)
      exact (h.child_iff hparent hentry).mpr ⟨hpos, hparentOf.trans hparentRel.symm⟩

/-- **What validation believes.** A record is believed when it and every directory above it hold,
and a path goes back to the walker when every directory above it holds but it does not. -/
theorem mem_outcome_iff (h : Represents index.entries records)
    (hpaths : ∀ record ∈ records, ∃ p, ValidPath p ∧ record.rel = render p) {threads : ℕ}
    {outcome : Outcome}
    (houtcome : walkIndex index (probeAll sys rootName index threads) = some outcome) :
    (∀ record, record ∈ outcome.fresh ↔ record ∈ records ∧
      record.holds sys rootName index.writtenNs = true ∧
      Borne sys rootName index.writtenNs records (components record.rel)) ∧
    ∀ rel, rel ∈ outcome.stale ↔ ∃ record ∈ records, record.rel = rel ∧
      record.holds sys rootName index.writtenNs = false ∧
      Borne sys rootName index.writtenNs records (components rel) := by
  rw [probeAll_eq] at houtcome
  obtain ⟨visited, hunfolds, -, hbounds, heq⟩ := walkIndex_eq h.linked
    (index.entries.map (probe sys rootName)) (by simp)
  obtain rfl := Option.some.inj (heq.symm.trans houtcome)
  have hvisited : ∀ {i : ℕ} {entry : Entry}, index.entries[i]? = some entry → (i ∈ visited ↔
      Borne sys rootName index.writtenNs records (components entry.rel)) := by
    intro i entry hentry
    have hrecord : entry.toRecord ∈ records :=
      h.perm.mem_iff.mp (List.mem_map_of_mem (List.mem_of_getElem? hentry))
    obtain ⟨p, hp, hrel⟩ := hpaths _ hrecord
    have hrel : entry.rel = render p := hrel
    rw [hrel, components_render hp, ← visited_iff h hp hentry hrel, hunfolds.mem_iff]
    simp
  have hentries : ∀ i ∈ visited, ∃ entry, index.entries[i]? = some entry := fun i hi =>
    ⟨_, List.getElem?_eq_getElem (hbounds i hi)⟩
  have hrecords : ∀ {i : ℕ} {entry : Entry}, index.entries[i]? = some entry →
      entry.toRecord ∈ records := fun hentry =>
    h.perm.mem_iff.mp (List.mem_map_of_mem (List.mem_of_getElem? hentry))
  have hindex : ∀ record ∈ records, ∃ (i : ℕ) (entry : Entry), index.entries[i]? = some entry ∧
      entry.toRecord = record := by
    intro record hrecord
    obtain ⟨entry, hmem, rfl⟩ := List.mem_map.mp (h.perm.mem_iff.mpr hrecord)
    obtain ⟨i, hentry⟩ := List.mem_iff_getElem?.mp hmem
    exact ⟨i, entry, hentry, rfl⟩
  rw [foldr_merge_fresh, foldr_merge_stale, List.flatMap_map, List.flatMap_map]
  refine ⟨fun record => ?_, fun rel => ?_⟩ <;> rw [List.mem_flatMap] <;> constructor
  · rintro ⟨i, hi, hmem⟩
    obtain ⟨entry, hentry⟩ := hentries i hi
    obtain ⟨rfl, hholds⟩ := (mem_concludes_fresh_iff hentry).mp hmem
    exact ⟨hrecords hentry, hholds, (hvisited hentry).mp hi⟩
  · rintro ⟨hmem, hholds, hborne⟩
    obtain ⟨i, entry, hentry, rfl⟩ := hindex record hmem
    exact ⟨i, (hvisited hentry).mpr hborne, (mem_concludes_fresh_iff hentry).mpr ⟨rfl, hholds⟩⟩
  · rintro ⟨i, hi, hmem⟩
    obtain ⟨entry, hentry⟩ := hentries i hi
    obtain ⟨rfl, hnot⟩ := (mem_concludes_stale_iff hentry).mp hmem
    exact ⟨entry.toRecord, hrecords hentry, rfl, hnot, (hvisited hentry).mp hi⟩
  · rintro ⟨record, hmem, rfl, hnot, hborne⟩
    obtain ⟨i, entry, hentry, rfl⟩ := hindex record hmem
    exact ⟨i, (hvisited hentry).mpr hborne, (mem_concludes_stale_iff hentry).mpr ⟨rfl, hnot⟩⟩

end Pass

end Scap
