import Mathlib.Data.List.Destutter
import Scap.Index.RoundTrip
import Scap.Walk.RelPath
import Scap.Walk.Root

/-!
# Building an index

`build` and `parent_of` (`src/index.rs`): the entry tree that a walk's records describe.  The
records are sorted by path, and each entry but the first is linked to its parent, found by a binary
search.

`build_eq_some` describes the result for records with distinct paths: the entries are the sorted
records, and an entry's children are the entries whose parent path is its own.
-/

namespace Scap

/-- `parent_of`: the root-relative path of `rel`'s parent directory. -/
def parentOf (rel : Bytes) : Bytes :=
  if slash ∈ rel then (rel.reverse.dropWhile (· ≠ slash)).tail.reverse else []

/-- `basename`: the last component of a root-relative path. -/
def basename (rel : Bytes) : Bytes := (rel.reverse.takeWhile (· ≠ slash)).reverse

/-- The records of `build`: sorted by path, and of equal paths the first. -/
def sortRecords (records : List Record) : List Record :=
  (records.mergeSort fun a b => a.rel ≤ b.rel).destutter fun a b => a.rel ≠ b.rel

/-- The index of the record with a path; the paths are sorted and distinct, so the binary search has
at most one answer. -/
def indexOfRel (sorted : List Record) (rel : Bytes) : Option ℕ :=
  sorted.findIdx? fun record => record.rel = rel

/-- One turn of the linking loop of `build`. -/
def linkEntry (sorted : List Record) (entries : List Entry) (i : ℕ) : Option (List Entry) := do
  let entry ← entries[i]?
  let at_ ← indexOfRel sorted (parentOf entry.rel)
  guard (i < 2 ^ 32)
  some (entries.modify at_ fun parent =>
    { parent with children := parent.children ++ [UInt32.ofNat i] })

/-- The entry of a record, before it is linked. -/
def Record.toEntry (record : Record) : Entry := ⟨record.rel, record.mtimeNs, []⟩

/-- `build`, given what `stat` finds at the root and what the clock says. -/
def build (statRoot : Except Errno Stat) (now : Int64) (root : Bytes) (opts : WalkOptions)
    (records : List Record) : Option Index := do
  let stat ← statRoot.toOption
  let sorted := sortRecords records
  let first ← sorted.head?
  guard (first.rel = [])
  let entries ← (List.range' 1 (sorted.length - 1)).foldlM (linkEntry sorted)
    (sorted.map Record.toEntry)
  some ⟨root, stat.dev, stat.ino, now, opts.exclude, entries⟩

/-! ## Sorting -/

/-- Records with distinct paths are sorted strictly, and none is dropped. -/
lemma sortRecords_of_nodup {records : List Record} (h : (records.map Record.rel).Nodup) :
    (sortRecords records).Perm records ∧
      (sortRecords records).Pairwise fun a b => a.rel < b.rel := by
  have hperm := List.mergeSort_perm records fun a b => decide (a.rel ≤ b.rel)
  have htrans : ∀ a b c : Record, decide (a.rel ≤ b.rel) = true → decide (b.rel ≤ c.rel) = true →
      decide (a.rel ≤ c.rel) = true := by
    simp only [decide_eq_true_eq]
    exact fun a b c hab hbc => List.le_trans hab hbc
  have htotal : ∀ a b : Record, (decide (a.rel ≤ b.rel) || decide (b.rel ≤ a.rel)) = true :=
    fun a b => by simpa using List.le_total a.rel b.rel
  have hle : (records.mergeSort fun a b => decide (a.rel ≤ b.rel)).Pairwise
      fun a b => a.rel ≤ b.rel := by
    simpa only [decide_eq_true_eq] using List.pairwise_mergeSort htrans htotal records
  have hne : (records.mergeSort fun a b => decide (a.rel ≤ b.rel)).Pairwise
      fun a b => a.rel ≠ b.rel :=
    List.pairwise_map.mp ((hperm.map Record.rel).nodup_iff.mpr h)
  have hsorted : sortRecords records = records.mergeSort fun a b => decide (a.rel ≤ b.rel) :=
    List.destutter_of_isChain _ _ hne.isChain
  rw [hsorted]
  exact ⟨hperm, (hle.and hne).imp fun ⟨hle, hne⟩ => Std.lt_of_le_of_ne hle hne⟩

/-- The order in which a walk recorded does not matter. -/
lemma sortRecords_eq {records sorted : List Record} (hperm : records.Perm sorted)
    (hsorted : sorted.Pairwise fun a b => a.rel < b.rel) : sortRecords records = sorted := by
  have hnodup : (records.map Record.rel).Nodup := (hperm.map Record.rel).nodup_iff.mpr
    (List.pairwise_map.mpr (hsorted.imp fun hlt => Std.ne_of_lt hlt))
  obtain ⟨hperm', hsorted'⟩ := sortRecords_of_nodup hnodup
  exact (hperm'.trans hperm).eq_of_pairwise
    (fun a b _ _ hab hba => absurd hba (List.lt_asymm hab)) hsorted' hsorted

/-! ## Linking -/

/-- The parent the loop finds for entry `i`. -/
def parentIndex (sorted : List Record) (i : ℕ) : Option ℕ :=
  sorted[i]?.bind fun record => indexOfRel sorted (parentOf record.rel)

/-- The entries once the loop has linked entries `1` to `k`. -/
def linked (sorted : List Record) (k : ℕ) : List Entry :=
  sorted.mapIdx fun j record => ⟨record.rel, record.mtimeNs,
    ((List.range' 1 k).filter fun i => parentIndex sorted i = some j).map UInt32.ofNat⟩

/-- One turn of the loop links one more entry. -/
lemma linkEntry_linked {sorted : List Record} {k : ℕ} {entries : List Entry}
    (h : linkEntry sorted (linked sorted k) (1 + k) = some entries) :
    entries = linked sorted (k + 1) ∧ 1 + k < 2 ^ 32 ∧ (parentIndex sorted (1 + k)).isSome := by
  simp only [linkEntry, Option.bind_eq_bind, Option.bind_eq_some_iff, Option.some.injEq,
    Option.guard_eq_some', exists_const] at h
  obtain ⟨entry, hentry, at_, hat, hlt, rfl⟩ := h
  have hparent : parentIndex sorted (1 + k) = some at_ := by
    rw [linked, List.getElem?_mapIdx, Option.map_eq_some_iff] at hentry
    obtain ⟨record, hrecord, rfl⟩ := hentry
    rw [parentIndex, hrecord]
    exact hat
  refine ⟨List.ext_getElem? fun j => ?_, hlt, by simp [hparent]⟩
  -- Only the children of the entry at `at_` grow, by the entry that is linked.
  have hchildren : (List.range' 1 (k + 1)).filter (fun i => parentIndex sorted i = some j) =
      (List.range' 1 k).filter (fun i => parentIndex sorted i = some j) ++
        if at_ = j then [1 + k] else [] := by
    rw [List.range'_concat, List.filter_append, Nat.one_mul]
    by_cases hj : at_ = j <;> simp [hparent, hj]
  rw [linked, linked, List.getElem?_modify, List.getElem?_mapIdx, List.getElem?_mapIdx, hchildren]
  cases sorted[j]? with
  | none => rfl
  | some record => by_cases hj : at_ = j <;> simp [hj]

/-- The loop of `build` links every entry but the first. -/
lemma foldlM_linkEntry {sorted : List Record} {k : ℕ} {entries : List Entry}
    (h : (List.range' 1 k).foldlM (linkEntry sorted) (sorted.map Record.toEntry) = some entries) :
    entries = linked sorted k ∧
      ∀ i, 1 ≤ i → i ≤ k → i < 2 ^ 32 ∧ (parentIndex sorted i).isSome := by
  induction k generalizing entries with
  | zero =>
    have hentries : sorted.map Record.toEntry = entries := by simpa using h
    refine ⟨?_, fun i hi hi' => absurd (hi.trans hi') (by decide)⟩
    rw [← hentries]
    refine List.ext_getElem? fun j => ?_
    rw [List.getElem?_map, linked, List.getElem?_mapIdx]
    rfl
  | succ k ih =>
    rw [List.range'_concat, List.foldlM_append, Option.bind_eq_bind, Option.bind_eq_some_iff] at h
    obtain ⟨before, hbefore, h⟩ := h
    obtain ⟨rfl, hall⟩ := ih hbefore
    have hlast : linkEntry sorted (linked sorted k) (1 + k) = some entries := by simpa using h
    obtain ⟨rfl, hlt, hparent⟩ := linkEntry_linked hlast
    refine ⟨rfl, fun i hi hi' => ?_⟩
    rcases Nat.lt_or_eq_of_le hi' with hi' | rfl
    · exact hall i hi (Nat.lt_succ_iff.mp hi')
    · rw [Nat.add_comm] at hlt hparent
      exact ⟨hlt, hparent⟩

/-- What `build` makes of records with distinct paths. -/
lemma build_eq_some {statRoot : Except Errno Stat} {now : Int64} {root : Bytes} {opts : WalkOptions}
    {records : List Record} {index : Index}
    (h : build statRoot now root opts records = some index) :
    ∃ stat, statRoot = .ok stat ∧ (sortRecords records).head?.map Record.rel = some [] ∧
      index = ⟨root, stat.dev, stat.ino, now, opts.exclude,
        linked (sortRecords records) ((sortRecords records).length - 1)⟩ ∧
      ∀ i, 1 ≤ i → i < (sortRecords records).length →
        i < 2 ^ 32 ∧ (parentIndex (sortRecords records) i).isSome := by
  simp only [build, Option.bind_eq_bind, Option.bind_eq_some_iff, Option.some.injEq,
    Option.guard_eq_some', exists_const] at h
  obtain ⟨stat, hstat, first, hfirst, hrel, entries, hentries, rfl⟩ := h
  obtain ⟨rfl, hall⟩ := foldlM_linkEntry hentries
  refine ⟨stat, ?_, by rw [hfirst, Option.map_some, hrel], rfl, fun i hi hi' =>
    hall i hi (by omega)⟩
  cases statRoot with
  | error err => simp [Except.toOption] at hstat
  | ok s => simpa [Except.toOption] using hstat

/-! ## The tree an index represents -/

/-- The record of an entry. -/
def Entry.toRecord (entry : Entry) : Record := ⟨entry.rel, entry.mtimeNs⟩

/-- The entries are the records, sorted by path, and linked by the parent paths. -/
structure Represents (entries : List Entry) (records : List Record) : Prop where
  perm : (entries.map Entry.toRecord).Perm records
  sorted : entries.Pairwise fun a b => a.rel < b.rel
  root_rel : entries.head?.map Entry.rel = some []
  child_iff : ∀ {j k : ℕ} {entry child : Entry}, entries[j]? = some entry →
    entries[k]? = some child → (k ∈ entry.childIndices ↔ 0 < k ∧ parentOf child.rel = entry.rel)
  child_lt : ∀ entry ∈ entries, ∀ k ∈ entry.childIndices, k < entries.length
  child_nodup : ∀ entry ∈ entries, entry.childIndices.Nodup
  parent : ∀ {k : ℕ} {child : Entry}, 0 < k → entries[k]? = some child →
    ∃ entry ∈ entries, entry.rel = parentOf child.rel

/-- The binary search finds the record with the path, and no other. -/
lemma indexOfRel_eq_some_iff {sorted : List Record} (h : sorted.Pairwise fun a b => a.rel < b.rel)
    {rel : Bytes} {j : ℕ} :
    indexOfRel sorted rel = some j ↔ ∃ record, sorted[j]? = some record ∧ record.rel = rel := by
  rw [indexOfRel, List.findIdx?_eq_some_iff_getElem]
  constructor
  · rintro ⟨hj, hrel, -⟩
    exact ⟨sorted[j], List.getElem?_eq_getElem hj, by simpa using hrel⟩
  · rintro ⟨record, hrecord, rfl⟩
    obtain ⟨hj, rfl⟩ := List.getElem?_eq_some_iff.mp hrecord
    refine ⟨hj, by simp, fun i hi => ?_⟩
    have hlt := List.pairwise_iff_getElem.mp h i j (hi.trans hj) hj hi
    simpa using Std.ne_of_lt hlt

/-- The entries of a linked list: their records, and their children as numbers. -/
lemma exists_of_linked {sorted : List Record}
    (hall : ∀ i, 1 ≤ i → i < sorted.length → i < 2 ^ 32) {j : ℕ} {entry : Entry}
    (h : (linked sorted (sorted.length - 1))[j]? = some entry) :
    sorted[j]? = some entry.toRecord ∧ entry.childIndices =
      (List.range' 1 (sorted.length - 1)).filter fun i => parentIndex sorted i = some j := by
  rw [linked, List.getElem?_mapIdx, Option.map_eq_some_iff] at h
  obtain ⟨record, hrecord, rfl⟩ := h
  refine ⟨hrecord, ?_⟩
  rw [Entry.childIndices, List.map_map]
  refine (List.map_congr_left fun i hi => ?_).trans (List.map_id _)
  have hrange := List.mem_range'_1.mp (List.mem_of_mem_filter hi)
  exact UInt32.toNat_ofNat_of_lt' (hall i hrange.1 (by omega))

/-- Linking sorted records whose parents are among them makes a tree. -/
lemma represents_linked {sorted records : List Record} (hperm : sorted.Perm records)
    (hsorted : sorted.Pairwise fun a b => a.rel < b.rel)
    (hhead : sorted.head?.map Record.rel = some [])
    (hall : ∀ i, 1 ≤ i → i < sorted.length → i < 2 ^ 32 ∧ (parentIndex sorted i).isSome) :
    Represents (linked sorted (sorted.length - 1)) records := by
  have hentry : ∀ {j : ℕ} {entry : Entry}, (linked sorted (sorted.length - 1))[j]? = some entry →
      sorted[j]? = some entry.toRecord ∧ entry.childIndices =
        (List.range' 1 (sorted.length - 1)).filter fun i => parentIndex sorted i = some j :=
    exists_of_linked fun i hi hi' => (hall i hi hi').1
  have hrecords : (linked sorted (sorted.length - 1)).map Entry.toRecord = sorted := by
    refine List.ext_getElem? fun j => ?_
    rw [List.getElem?_map, linked, List.getElem?_mapIdx, Option.map_map]
    exact congrFun Option.map_id _
  generalize linked sorted (sorted.length - 1) = entries at *
  have hlength : entries.length = sorted.length := by rw [← hrecords, List.length_map]
  have hindex : ∀ entry ∈ entries, ∃ j : ℕ, entries[j]? = some entry := fun entry hmem =>
    List.mem_iff_getElem?.mp hmem
  refine ⟨by rwa [hrecords], ?_, ?_, ?_, ?_, ?_, ?_⟩
  · rw [← hrecords, List.pairwise_map] at hsorted
    exact hsorted
  · rw [← hrecords, List.head?_map, Option.map_map] at hhead
    exact hhead
  · intro j k entry child hj hk
    obtain ⟨hsortedj, hchildren⟩ := hentry hj
    obtain ⟨hsortedk, -⟩ := hentry hk
    have hklt : k < sorted.length := (List.getElem?_eq_some_iff.mp hsortedk).1
    have hparent : parentIndex sorted k = some j ↔ parentOf child.rel = entry.rel := by
      rw [parentIndex, hsortedk, Option.bind_some, indexOfRel_eq_some_iff hsorted]
      simp [hsortedj, Entry.toRecord, eq_comm]
    rw [hchildren, List.mem_filter, List.mem_range'_1, decide_eq_true_eq, hparent]
    refine and_congr_left fun _ => ?_
    omega
  · intro entry hmem k hk
    obtain ⟨j, hj⟩ := hindex entry hmem
    rw [(hentry hj).2] at hk
    have := List.mem_range'_1.mp (List.mem_of_mem_filter hk)
    omega
  · intro entry hmem
    obtain ⟨j, hj⟩ := hindex entry hmem
    rw [(hentry hj).2]
    exact (List.nodup_range' ..).filter _
  · intro k child hpos hk
    obtain ⟨hsortedk, -⟩ := hentry hk
    have hklt : k < sorted.length := (List.getElem?_eq_some_iff.mp hsortedk).1
    obtain ⟨j, hj⟩ := Option.isSome_iff_exists.mp (hall k hpos hklt).2
    rw [parentIndex, hsortedk, Option.bind_some, indexOfRel_eq_some_iff hsorted] at hj
    obtain ⟨record, hrecord, hrel⟩ := hj
    have hjlt : j < entries.length := hlength ▸ (List.getElem?_eq_some_iff.mp hrecord).1
    have hsame := (hentry (List.getElem?_eq_getElem hjlt)).1
    rw [hrecord, Option.some.injEq] at hsame
    exact ⟨entries[j], List.getElem_mem hjlt, (congrArg Record.rel hsame).symm.trans hrel⟩

/-- `build` makes an index that represents the records. -/
lemma build_represents {statRoot : Except Errno Stat} {now : Int64} {root : Bytes}
    {opts : WalkOptions} {records : List Record} {index : Index}
    (hnodup : (records.map Record.rel).Nodup)
    (h : build statRoot now root opts records = some index) :
    Represents index.entries records ∧ ∃ stat, statRoot = .ok stat ∧ index.root = root ∧
      index.dev = stat.dev ∧ index.ino = stat.ino ∧ index.writtenNs = now ∧
      index.exclude = opts.exclude := by
  obtain ⟨stat, hstat, hhead, rfl, hall⟩ := build_eq_some h
  obtain ⟨hperm, hsorted⟩ := sortRecords_of_nodup hnodup
  exact ⟨represents_linked hperm hsorted hhead hall, stat, hstat, rfl, rfl, rfl, rfl, rfl⟩

/-! ## Well-formedness -/

/-- The parent of a joined path is the path it was joined to. -/
lemma parentOf_joinRel {rel name : Bytes} (hname : slash ∉ name) :
    parentOf (joinRel rel name) = rel := by
  rcases eq_or_ne rel [] with rfl | hrel
  · have hjoin : joinRel [] name = name := rfl
    rw [parentOf, hjoin, if_neg hname]
  · have hrev : (joinRel rel name).reverse = name.reverse ++ slash :: rel.reverse := by
      simp [joinRel, hrel]
    have hdrop : (name.reverse ++ slash :: rel.reverse).dropWhile (· ≠ slash) =
        slash :: rel.reverse := by
      rw [List.dropWhile_append_of_pos]
      · simp
      · intro b hb
        have : b ≠ slash := by
          rintro rfl
          exact hname (List.mem_reverse.mp hb)
        simpa using this
    rw [parentOf, if_pos (slash_mem_joinRel hrel), hrev, hdrop]
    simp

/-- A parent's path sorts before its child's. -/
lemma parentOf_lt {rel : Bytes} (h : rel ≠ []) : parentOf rel < rel := by
  have hpre : parentOf rel <+: rel := by
    unfold parentOf
    split
    · have hsuffix := (List.tail_suffix _).trans
          (List.dropWhile_suffix (l := rel.reverse) (· ≠ slash))
      simpa using List.reverse_prefix.mpr hsuffix
    · exact List.nil_prefix
  refine Std.lt_of_le_of_ne hpre.le fun heq => ?_
  have hlength := congrArg List.length heq
  have hpos := List.length_pos_of_ne_nil h
  unfold parentOf at hlength
  split at hlength
  · have hle := (List.dropWhile_suffix (l := rel.reverse) (· ≠ slash)).length_le
    simp only [List.length_reverse, List.length_tail] at hlength hle
    omega
  · simp at hlength
    omega

section Tree

variable {entries : List Entry} {records : List Record}

/-- Entries come in the order of their paths. -/
lemma Represents.lt_of_rel_lt (h : Represents entries records) {j k : ℕ} {entry child : Entry}
    (hj : entries[j]? = some entry) (hk : entries[k]? = some child) (hlt : entry.rel < child.rel) :
    j < k := by
  obtain ⟨hjlt, rfl⟩ := List.getElem?_eq_some_iff.mp hj
  obtain ⟨hklt, rfl⟩ := List.getElem?_eq_some_iff.mp hk
  rcases Nat.lt_trichotomy j k with hjk | rfl | hkj
  · exact hjk
  · exact absurd hlt (List.lt_irrefl _)
  · exact absurd hlt (List.lt_asymm (List.pairwise_iff_getElem.mp h.sorted k j hklt hjlt hkj))

/-- Only the first entry has the empty path. -/
lemma Represents.rel_ne_nil (h : Represents entries records) {k : ℕ} {child : Entry}
    (hpos : 0 < k) (hk : entries[k]? = some child) : child.rel ≠ [] := by
  obtain ⟨hklt, rfl⟩ := List.getElem?_eq_some_iff.mp hk
  have hlt := List.pairwise_iff_getElem.mp h.sorted 0 k (hpos.trans hklt) hklt hpos
  rintro heq
  rw [heq] at hlt
  exact List.not_lt_nil _ hlt

/-- No two entries have one path. -/
lemma Represents.nodup (h : Represents entries records) : (entries.map Entry.rel).Nodup :=
  List.pairwise_map.mpr (h.sorted.imp fun hlt => Std.ne_of_lt hlt)

/-- Entries with one path are one entry. -/
lemma Represents.index_unique (h : Represents entries records) {j k : ℕ} {entry child : Entry}
    (hj : entries[j]? = some entry) (hk : entries[k]? = some child) (hrel : entry.rel = child.rel) :
    j = k := by
  obtain ⟨hjlt, rfl⟩ := List.getElem?_eq_some_iff.mp hj
  obtain ⟨hklt, rfl⟩ := List.getElem?_eq_some_iff.mp hk
  have hsorted := List.pairwise_iff_getElem.mp h.sorted
  rcases Nat.lt_trichotomy j k with hjk | rfl | hkj
  · exact absurd hrel (Std.ne_of_lt (hsorted j k hjlt hklt hjk))
  · rfl
  · exact absurd hrel.symm (Std.ne_of_lt (hsorted k j hklt hjlt hkj))

/-- No entry is claimed twice. -/
lemma Represents.nodup_claimedBy (h : Represents entries records) : (claimedBy entries).Nodup := by
  refine List.nodup_flatMap.mpr ⟨h.child_nodup, ?_⟩
  refine h.sorted.imp_of_mem fun {a b} ha hb hlt k hka hkb => ?_
  obtain ⟨i, hi⟩ := List.mem_iff_getElem?.mp ha
  obtain ⟨j, hj⟩ := List.mem_iff_getElem?.mp hb
  have hk := List.getElem?_eq_getElem (h.child_lt a ha k hka)
  have hrel := ((h.child_iff hi hk).mp hka).2.symm.trans ((h.child_iff hj hk).mp hkb).2
  exact Std.ne_of_lt hlt hrel

/-- Every entry but the first is claimed. -/
lemma Represents.mem_claimedBy (h : Represents entries records) {k : ℕ} (hpos : 0 < k)
    (hk : k < entries.length) : k ∈ claimedBy entries := by
  have hchild := List.getElem?_eq_getElem hk
  obtain ⟨entry, hentry, hrel⟩ := h.parent hpos hchild
  obtain ⟨j, hj⟩ := List.mem_iff_getElem?.mp hentry
  exact List.mem_flatMap.mpr ⟨entry, hentry, (h.child_iff hj hchild).mpr ⟨hpos, hrel.symm⟩⟩

/-- A child is one of the entries, and its parent's path is the claiming entry's. -/
lemma Represents.exists_child (h : Represents entries records) {entry : Entry}
    (hentry : entry ∈ entries) {k : ℕ} (hk : k ∈ entry.childIndices) :
    ∃ child ∈ entries, entries[k]? = some child ∧ 0 < k ∧ parentOf child.rel = entry.rel := by
  obtain ⟨j, hj⟩ := List.mem_iff_getElem?.mp hentry
  have hklt := h.child_lt entry hentry k hk
  have hget := List.getElem?_eq_getElem hklt
  exact ⟨_, List.getElem_mem hklt, hget, (h.child_iff hj hget).mp hk⟩

/-- Children come after their parents. -/
lemma Represents.forward (h : Represents entries records) (j : ℕ) (hj : j < entries.length) (k : ℕ)
    (hk : k ∈ entries[j].childIndices) : j < k ∧ k < entries.length := by
  obtain ⟨child, -, hget, hpos, hparent⟩ := h.exists_child (List.getElem_mem hj) hk
  refine ⟨h.lt_of_rel_lt (List.getElem?_eq_getElem hj) hget ?_,
    h.child_lt _ (List.getElem_mem hj) k hk⟩
  rw [← hparent]
  exact parentOf_lt (h.rel_ne_nil hpos hget)

end Tree

/-- The tree of records that fit, with childless repositories and safe paths, is well formed. -/
lemma Represents.wellFormed {index : Index} {records : List Record}
    (h : Represents index.entries records) (hsafe : ∀ record ∈ records, isSafeRel record.rel = true)
    (hdirs : ∀ record ∈ records, record.rel ≠ [] → ∀ parent ∈ records,
      parent.rel = parentOf record.rel → parent.mtimeNs ≠ none)
    (hroot : index.root.length < 2 ^ 32) (hexclude : index.exclude.length < 2 ^ 32)
    (hpattern : ∀ pattern ∈ index.exclude, pattern.length < 2 ^ 32)
    (hcount : records.length < 2 ^ 32) (hrel : ∀ record ∈ records, record.rel.length < 2 ^ 32) :
    index.WellFormed := by
  have hmem : ∀ entry ∈ index.entries, entry.toRecord ∈ records := fun entry hentry =>
    h.perm.mem_iff.mp (List.mem_map_of_mem hentry)
  have hlength : index.entries.length = records.length := by
    rw [← h.perm.length_eq, List.length_map]
  refine ⟨h.root_rel, fun entry hentry => hsafe _ (hmem entry hentry), ?_, h.forward, ?_, hroot,
    hexclude, hpattern, by omega, fun entry hentry => hrel _ (hmem entry hentry), ?_⟩
  · intro entry hentry hnone
    by_contra hne
    obtain ⟨child, hchildren⟩ := List.exists_mem_of_ne_nil _ hne
    obtain ⟨c, hc, hget, hpos, hparent⟩ := h.exists_child hentry (List.mem_map_of_mem hchildren)
    exact hdirs _ (hmem c hc) (h.rel_ne_nil hpos hget) _ (hmem entry hentry) hparent.symm hnone
  · intro k hpos hk
    exact List.count_eq_one_of_mem h.nodup_claimedBy (h.mem_claimedBy hpos hk)
  · intro entry hentry
    have hsub : entry.childIndices ⊆ List.range index.entries.length := fun k hk =>
      List.mem_range.mpr (h.child_lt entry hentry k hk)
    have hle := ((h.child_nodup entry hentry).subperm hsub).length_le
    simp only [Entry.childIndices, List.length_map, List.length_range] at hle
    omega

end Scap
