import Scap.Index.Paths

/-!
# The index of a complete walk

What a complete walk records (`CompleteRecords`): every path once, the root's among them, and above
every path a directory.  `build` makes one tree of these records, whatever their order, and a file
holds it as long as nothing outgrows the `u32` length prefixes (`src/index.rs`, `build`,
`parent_of`, `push_len`; `src/walk/sys.rs`, `Out::emit`, `Out::note_dir`, `Out::merge`).
-/

namespace Scap

open Cursor

/-- The records of a complete walk, in any order. -/
structure CompleteRecords (records : List Record) : Prop where
  /-- No path is recorded twice. -/
  nodup : (records.map Record.rel).Nodup
  /-- Every path is empty or a relative path of valid names. -/
  safe : ∀ record ∈ records, isSafeRel record.rel = true
  /-- The root is recorded. -/
  root : ∃ record ∈ records, record.rel = []
  /-- Above every recorded path is a recorded directory. -/
  parent : ∀ record ∈ records, record.rel ≠ [] →
    ∃ mtime, Record.dir (parentOf record.rel) mtime ∈ records

section Build

variable {records : List Record}

/-- The loop of `build` gets through when every entry finds its parent and every index fits. -/
lemma foldlM_linkEntry_of_parents {sorted : List Record} {k : ℕ} (hk : k < sorted.length)
    (hall : ∀ i, 1 ≤ i → i ≤ k → i < 2 ^ 32 ∧ (parentIndex sorted i).isSome) :
    ((List.range' 1 k).foldlM (linkEntry sorted) (sorted.map Record.toEntry)).isSome := by
  induction k with
  | zero => rfl
  | succ k ih =>
    obtain ⟨entries, hentries⟩ := Option.isSome_iff_exists.mp
      (ih (Nat.lt_of_succ_lt hk) fun i hi hi' => hall i hi (Nat.le_succ_of_le hi'))
    obtain ⟨hlt, hparent⟩ := hall (k + 1) (Nat.succ_pos k) le_rfl
    rw [Nat.add_comm] at hlt hparent hk
    obtain ⟨at_, hat⟩ := Option.isSome_iff_exists.mp hparent
    rw [parentIndex, List.getElem?_eq_getElem hk, Option.bind_some] at hat
    have hentry : entries[1 + k]?.map Entry.rel = some sorted[1 + k].rel := by
      rw [(foldlM_linkEntry hentries).1, linked, List.getElem?_mapIdx,
        List.getElem?_eq_getElem hk]
      rfl
    obtain ⟨entry, hget, hrel⟩ := Option.map_eq_some_iff.mp hentry
    rw [List.range'_concat, Nat.one_mul, List.foldlM_append, hentries]
    have hguard : guard (f := Option) (1 + k < 2 ^ 32) = some () := if_pos hlt
    simp only [linkEntry, hget, hrel, hat, hguard, Option.bind_eq_bind, Option.bind_some,
      List.foldlM_cons, List.foldlM_nil, Option.pure_def, Option.isSome_some]

namespace CompleteRecords

/-- The sorted records start with the root's. -/
lemma head?_sortRecords (h : CompleteRecords records) :
    (sortRecords records).head?.map Record.rel = some [] := by
  obtain ⟨hperm, hsorted⟩ := sortRecords_of_nodup h.nodup
  obtain ⟨record, hrecord, hrel⟩ := h.root
  have hmem := hperm.mem_iff.mpr hrecord
  cases hcons : sortRecords records with
  | nil => simp [hcons] at hmem
  | cons first rest =>
    rw [hcons] at hmem hsorted
    rcases List.mem_cons.mp hmem with rfl | hrest
    · rw [List.head?_cons, Option.map_some, hrel]
    · -- nothing sorts before the empty path
      have hlt := (List.pairwise_cons.mp hsorted).1 record hrest
      rw [hrel] at hlt
      exact absurd hlt (List.not_lt_nil _)

/-- Every sorted record but the first finds its parent. -/
lemma isSome_parentIndex (h : CompleteRecords records) {i : ℕ} (hi : 1 ≤ i)
    (hlt : i < (sortRecords records).length) :
    (parentIndex (sortRecords records) i).isSome := by
  obtain ⟨hperm, hsorted⟩ := sortRecords_of_nodup h.nodup
  have hne : (sortRecords records)[i].rel ≠ [] := by
    intro hnil
    have hbefore := List.pairwise_iff_getElem.mp hsorted 0 i (by omega) hlt (by omega)
    rw [hnil] at hbefore
    exact absurd hbefore (List.not_lt_nil _)
  obtain ⟨mtime, hparent⟩ := h.parent _ (hperm.mem_iff.mp (List.getElem_mem hlt)) hne
  obtain ⟨j, hj⟩ := List.mem_iff_getElem?.mp (hperm.mem_iff.mpr hparent)
  rw [parentIndex, List.getElem?_eq_getElem hlt, Option.bind_some]
  exact Option.isSome_iff_exists.mpr ⟨j, (indexOfRel_eq_some_iff hsorted).mpr ⟨_, hj, rfl⟩⟩

/-- The records in another order are sorted to the same list. -/
lemma sortRecords_perm (h : CompleteRecords records) {records' : List Record}
    (hperm : records'.Perm records) : sortRecords records' = sortRecords records := by
  obtain ⟨hsorted, hpairwise⟩ := sortRecords_of_nodup h.nodup
  exact sortRecords_eq (hperm.trans hsorted.symm) hpairwise

/-- `build` makes one tree of the records in every order. -/
lemma build_eq (h : CompleteRecords records) (hcount : records.length ≤ 2 ^ 32)
    {records' : List Record} (hperm : records'.Perm records) (stat : Stat) (now : Int64)
    (root : Bytes) (opts : WalkOptions) :
    build (.ok stat) now root opts records' = some ⟨root, stat.dev, stat.ino, now, opts.exclude,
      linked (sortRecords records) ((sortRecords records).length - 1)⟩ := by
  obtain ⟨first, hfirst, hrel⟩ := Option.map_eq_some_iff.mp h.head?_sortRecords
  have hlength := (sortRecords_of_nodup h.nodup).1.length_eq
  have hpos : 0 < (sortRecords records).length :=
    List.length_pos_of_ne_nil fun hnil => by simp [hnil] at hfirst
  obtain ⟨entries, hentries⟩ := Option.isSome_iff_exists.mp
    (foldlM_linkEntry_of_parents (k := (sortRecords records).length - 1) (by omega)
      fun i hi hi' => ⟨by omega, h.isSome_parentIndex hi (by omega)⟩)
  rw [← (foldlM_linkEntry hentries).1]
  simp [build, h.sortRecords_perm hperm, hfirst, hrel, hentries, Except.toOption]

/-- The tree `build` makes. -/
lemma represents (h : CompleteRecords records) (hcount : records.length ≤ 2 ^ 32) :
    Represents (linked (sortRecords records) ((sortRecords records).length - 1)) records := by
  obtain ⟨hperm, hsorted⟩ := sortRecords_of_nodup h.nodup
  have hlength := hperm.length_eq
  exact represents_linked hperm hsorted h.head?_sortRecords fun i hi hi' =>
    ⟨by omega, h.isSome_parentIndex hi hi'⟩

/-- An index a `u32` does not hold is in the way. -/
lemma build_eq_none (h : CompleteRecords records) (hcount : 2 ^ 32 < records.length)
    {records' : List Record} (hperm : records'.Perm records) (statRoot : Except Errno Stat)
    (now : Int64) (root : Bytes) (opts : WalkOptions) :
    build statRoot now root opts records' = none := by
  cases hbuild : build statRoot now root opts records' with
  | none => rfl
  | some index =>
    obtain ⟨-, -, -, -, hall⟩ := build_eq_some hbuild
    rw [h.sortRecords_perm hperm, (sortRecords_of_nodup h.nodup).1.length_eq] at hall
    exact absurd (hall (2 ^ 32) (by omega) hcount).1 (Nat.lt_irrefl _)

/-- Every recorded path but the root's is its parent's path and one name more. -/
lemma exists_name (h : CompleteRecords records) {record : Record} (hrecord : record ∈ records)
    (hne : record.rel ≠ []) :
    ∃ name, ValidName name ∧ record.rel = joinRel (parentOf record.rel) name := by
  rcases isSafeRel_iff.mp (h.safe record hrecord) with hnil | ⟨names, hnames, hvalid, hrel⟩
  · exact absurd hnil hne
  · obtain rfl | ⟨above, name, rfl⟩ := List.eq_nil_or_concat' names
    · exact absurd rfl hnames
    · have hname := validPath_singleton.mp (validPath_append.mp hvalid).2
      rw [render_append_singleton] at hrel
      refine ⟨name, hname, ?_⟩
      rw [hrel, parentOf_joinRel hname.noSlash]

/-- A child's path is its parent's and one name more, and every such path is a child's. -/
lemma child_iff (h : CompleteRecords records) {entries : List Entry}
    (hrep : Represents entries records) {j k : ℕ} {entry child : Entry}
    (hj : entries[j]? = some entry) (hk : entries[k]? = some child) :
    k ∈ entry.childIndices ↔ ∃ name, ValidName name ∧ child.rel = joinRel entry.rel name := by
  rw [hrep.child_iff hj hk]
  have hmem : child.toRecord ∈ records :=
    hrep.perm.mem_iff.mp (List.mem_map_of_mem (List.mem_of_getElem? hk))
  constructor
  · rintro ⟨hpos, hparent⟩
    obtain ⟨name, hname, hrel⟩ := h.exists_name hmem (hrep.rel_ne_nil hpos hk)
    exact ⟨name, hname, by rw [← hparent]; exact hrel⟩
  · rintro ⟨name, hname, hrel⟩
    refine ⟨?_, by rw [hrel, parentOf_joinRel hname.noSlash]⟩
    rcases Nat.eq_zero_or_pos k with rfl | hpos
    · have hroot := hrep.root_rel
      rw [List.head?_eq_getElem?, hk, Option.map_some, Option.some.injEq, hrel] at hroot
      exact absurd hroot (joinRel_ne_nil hname.nonempty)
    · exact hpos

/-- The index of the records is well formed as long as every length fits its prefix. -/
lemma wellFormed_iff (h : CompleteRecords records) {index : Index}
    (hrep : Represents index.entries records) :
    index.WellFormed ↔ index.HeaderFits ∧ records.length < 2 ^ 32 ∧
      ∀ record ∈ records, record.rel.length < 2 ^ 32 := by
  have hlength : index.entries.length = records.length := by
    rw [← hrep.perm.length_eq, List.length_map]
  constructor
  · intro hwf
    refine ⟨hwf.headerFits, hlength ▸ hwf.entries_lt, fun record hrecord => ?_⟩
    obtain ⟨entry, hentry, rfl⟩ := List.mem_map.mp (hrep.perm.mem_iff.mpr hrecord)
    exact hwf.rel_lt entry hentry
  · rintro ⟨hheader, hcount, hrel⟩
    refine hrep.wellFormed h.safe (fun record hrecord hne parent hparent heq => ?_) hheader.root_lt
      hheader.exclude_lt hheader.pattern_lt hcount hrel
    obtain ⟨mtime, hdir⟩ := h.parent record hrecord hne
    obtain rfl : parent = Record.dir (parentOf record.rel) mtime :=
      List.inj_on_of_nodup_map h.nodup hparent hdir heq
    simp [Record.dir]

end CompleteRecords

end Build

/-- **`build` writes a tree its own decoder accepts, whatever the walk's order**: up to `2 ^ 32`
records make one tree, of which each entry's children are the entries one name below it, all behind
it; and the file holds the tree unless some length has outgrown its prefix. -/
theorem build_complete {records : List Record} (h : CompleteRecords records) :
    (records.length ≤ 2 ^ 32 → ∃ entries : List Entry,
      (∀ records', records'.Perm records → ∀ stat now root opts,
        build (.ok stat) now root opts records' =
          some ⟨root, stat.dev, stat.ino, now, opts.exclude, entries⟩) ∧
      (entries.map Entry.toRecord).Perm records ∧
      (∀ (j k : ℕ) (entry child : Entry), entries[j]? = some entry → entries[k]? = some child →
        (k ∈ entry.childIndices ↔
          ∃ name, ValidName name ∧ child.rel = joinRel entry.rel name)) ∧
      (∀ entry ∈ entries, entry.childIndices.Nodup) ∧
      (∀ (j k : ℕ) (entry : Entry), entries[j]? = some entry → k ∈ entry.childIndices →
        j < k ∧ k < entries.length) ∧
      ∀ index : Index, index.entries = entries →
        (Index.decode index.encode = some index ↔ index.HeaderFits ∧ records.length < 2 ^ 32 ∧
          ∀ record ∈ records, record.rel.length < 2 ^ 32)) ∧
    (2 ^ 32 < records.length → ∀ records', records'.Perm records → ∀ statRoot now root opts,
      build statRoot now root opts records' = none) := by
  refine ⟨fun hcount => ?_, fun hcount records' hperm => h.build_eq_none hcount hperm⟩
  have hrep := h.represents hcount
  refine ⟨_, fun records' hperm => h.build_eq hcount hperm, hrep.perm,
    fun j k entry child => h.child_iff hrep, hrep.child_nodup, ?_, ?_⟩
  · intro j k entry hj hk
    obtain ⟨hjlt, rfl⟩ := List.getElem?_eq_some_iff.mp hj
    exact hrep.forward j hjlt k hk
  · rintro index hentries
    rw [Index.decode_eq_some_iff, and_iff_left rfl, h.wellFormed_iff (hentries ▸ hrep)]

/-- What a walk records of a root with one repository in it. -/
def oneRepoRecords (name : Bytes) : List Record := [.dir [] 7, .repo name]

/-- The records of one repository are complete. -/
lemma completeRecords_oneRepo {name : Bytes} (h : ValidName name) :
    CompleteRecords (oneRepoRecords name) where
  nodup := by simp [oneRepoRecords, Record.dir, Record.repo, h.nonempty.symm]
  safe record hrecord := by
    rcases List.mem_cons.mp hrecord with rfl | hrecord
    · rfl
    · obtain rfl := List.mem_singleton.mp hrecord
      exact isSafeRel_render (validPath_singleton.mpr h)
  root := ⟨.dir [] 7, by simp [oneRepoRecords], rfl⟩
  parent record hrecord hne := by
    rcases List.mem_cons.mp hrecord with rfl | hrecord
    · exact absurd rfl hne
    · obtain rfl := List.mem_singleton.mp hrecord
      refine ⟨7, ?_⟩
      rw [show parentOf (Record.repo name).rel = [] from if_neg h.noSlash]
      exact List.mem_cons_self

/-- An index of one repository can be built from its records in any order. -/
theorem build_complete_oneRepo :
    ∃ entries : List Entry, ∀ records', records'.Perm (oneRepoRecords [0x61]) →
      ∀ stat now root opts, build (.ok stat) now root opts records' =
        some ⟨root, stat.dev, stat.ino, now, opts.exclude, entries⟩ := by
  obtain ⟨entries, hbuild, -⟩ :=
    (build_complete (completeRecords_oneRepo (show ValidName [0x61] by decide))).1 (by decide)
  exact ⟨entries, hbuild⟩

/-- A name of `2 ^ 32` bytes is recorded and linked, and its length does not fit the file. -/
theorem build_long_name : CompleteRecords (oneRepoRecords (List.replicate (2 ^ 32) 0x61)) ∧
    ∀ stat now root opts, ∃ index,
      build (.ok stat) now root opts (oneRepoRecords (List.replicate (2 ^ 32) 0x61)) =
        some index ∧ Index.decode index.encode ≠ some index := by
  have hlength : (List.replicate (2 ^ 32) (0x61 : UInt8)).length = 2 ^ 32 := List.length_replicate
  generalize hname : List.replicate (2 ^ 32) (0x61 : UInt8) = name at hlength
  have hmem : ∀ b ∈ name, b = 0x61 := fun b hb => List.eq_of_mem_replicate (hname ▸ hb)
  have hvalid : ValidName name := {
    nonempty := List.ne_nil_of_length_pos (by omega)
    noSlash := fun hb => absurd (hmem _ hb) (by decide)
    noNul := fun hb => absurd (hmem _ hb) (by decide)
    ne_dot := fun heq => by simp [heq, dot, ascii] at hlength
    ne_dotDot := fun heq => by simp [heq, dotDot, ascii] at hlength }
  have hrecords := completeRecords_oneRepo hvalid
  have hcount : (oneRepoRecords name).length ≤ 2 ^ 32 := by
    rw [show (oneRepoRecords name).length = 2 from rfl]
    decide
  refine ⟨hrecords, fun stat now root opts =>
    ⟨_, hrecords.build_eq hcount (.refl _) stat now root opts, fun hdecode => ?_⟩⟩
  have hwf := (Index.decode_eq_some_iff.mp hdecode).1
  have hlt := ((hrecords.wellFormed_iff (hrecords.represents hcount)).mp hwf).2.2 (.repo name)
    (by simp [oneRepoRecords])
  exact absurd hlt (by simp [Record.repo, hlength])

end Scap
