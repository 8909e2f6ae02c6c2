import Scap.Index.Checked
import Scap.Index.Validate

/-!
# The validation pass accounts for every entry

Over an index read from a file the pass of `walk_index` is a partial traversal of a tree: forward
edges make it end, and single claiming keeps it from visiting an entry twice (`src/index.rs`,
`decode`, `Reader`, `walk_index`).  Here the rest: an entry it does not visit lies below exactly one
entry it hands back to the walker, because every entry is claimed.
-/

namespace Scap

open Relation (TransGen ReflTransGen)

/-- Probes of the kinds `probe` makes: one for each entry, and the answer for a repository only at
repositories, that for a directory only at directories. -/
structure ProbesFit (index : Index) (probes : List Probe) : Prop where
  length_eq : probes.length = index.entries.length
  repo : ∀ {i : ℕ} {entry : Entry}, index.entries[i]? = some entry → probes[i]? = some .repo →
    entry.isRepo = true
  dir : ∀ {i : ℕ} {entry : Entry} {mtime : Int64}, index.entries[i]? = some entry →
    probes[i]? = some (.dir mtime) → entry.isRepo = false

/-- What `probe` finds fits. -/
lemma probesFit_probe (index : Index) (sys : Sys) (rootName : Bytes) :
    ProbesFit index (index.entries.map (probe sys rootName)) := by
  have hget : ∀ {i : ℕ} {entry : Entry} {found : Probe}, index.entries[i]? = some entry →
      (index.entries.map (probe sys rootName))[i]? = some found →
        probe sys rootName entry = found := by
    intro i entry found hentry hfound
    rw [List.getElem?_map, hentry, Option.map_some, Option.some.injEq] at hfound
    exact hfound
  exact ⟨List.length_map .., fun hentry hfound => isRepo_of_probe (hget hentry hfound),
    fun hentry hfound => isRepo_of_probe_dir (hget hentry hfound)⟩

/-- Whether the pass believes entry `i`, once it gets there. -/
def validated (index : Index) (probes : List Probe) (i : ℕ) : Bool :=
  match index.entries[i]?, probes[i]? with
  | some _, some .repo => true
  | some entry, some (.dir observed) =>
    entry.mtimeNs = some observed && !isRacy observed index.writtenNs
  | _, _ => false

/-- Entry `b` is a child of entry `a`. -/
def Index.Child (index : Index) (a b : ℕ) : Prop :=
  ∃ entry, index.entries[a]? = some entry ∧ b ∈ entry.childIndices

section

variable {index : Index} {probes : List Probe}

/-! ## One turn -/

/-- What the turn for entry `i` does: the entry is counted, recorded and its children are pushed, or
its path goes back to the walker. -/
lemma turn_cases (hwf : index.WellFormed) (hfit : ProbesFit index probes) {i : ℕ} {entry : Entry}
    (hentry : index.entries[i]? = some entry) :
    (validated index probes i = true ∧
      concludes index probes i = { fresh := [entry.toRecord], hits := 1 } ∧
        pushedBy index probes i = entry.childIndices.reverse) ∨
    (validated index probes i = false ∧
      (∃ racy, concludes index probes i = { stale := [entry.rel], racy := racy }) ∧
        pushedBy index probes i = []) := by
  have hi := (List.getElem?_eq_some_iff.mp hentry).1
  obtain ⟨found, hfound⟩ : ∃ found, probes[i]? = some found :=
    ⟨_, List.getElem?_eq_getElem (hfit.length_eq ▸ hi)⟩
  rw [concludes, pushedBy, visitIndex_eq hentry hfound, validated, hentry, hfound]
  rcases visitEntry_cases index.writtenNs entry found with
    ⟨rfl, hvisit⟩ | ⟨mtime, rfl, hmtime, hracy, hvisit⟩ | ⟨hrepo, hracy, racy, hvisit⟩
  · -- a repository has no children
    have hnone : entry.mtimeNs = none := by
      simpa [Entry.isRepo] using hfit.repo hentry hfound
    have hchildren := hwf.repo_childless entry (List.mem_of_getElem? hentry) hnone
    refine .inl ⟨rfl, ?_, ?_⟩
    · simp [hvisit, Record.repo, Entry.toRecord, hnone]
    · simp [hvisit, Entry.childIndices, hchildren]
  · refine .inl ⟨by simp [hmtime, hracy], ?_, by simp [hvisit]⟩
    simp [hvisit, Record.dir, Entry.toRecord, hmtime]
  · refine .inr ⟨?_, ⟨racy, by simp [hvisit]⟩, by simp [hvisit]⟩
    cases found with
    | repo => exact absurd rfl hrepo
    | stale => rfl
    | dir observed =>
      by_cases hmtime : entry.mtimeNs = some observed
      · simp [hracy observed rfl hmtime]
      · simp [hmtime]

/-- The pass goes on from an entry it believes, to its children. -/
lemma mem_pushedBy_iff_child (hwf : index.WellFormed) (hfit : ProbesFit index probes) {a b : ℕ} :
    b ∈ pushedBy index probes a ↔ validated index probes a = true ∧ index.Child a b := by
  cases hentry : index.entries[a]? with
  | none => simp [pushedBy, visitIndex, Index.Child, hentry]
  | some entry =>
    rcases turn_cases hwf hfit hentry with ⟨hvalid, -, hpushed⟩ | ⟨hvalid, -, hpushed⟩ <;>
      simp [hpushed, hvalid, Index.Child, hentry]

/-- The conclusions of the turns for some entries, added up. -/
lemma foldr_concludes (hwf : index.WellFormed) (hfit : ProbesFit index probes) {visited : List ℕ}
    (h : ∀ i ∈ visited, i < index.entries.length) :
    ((visited.map (concludes index probes)).foldr Outcome.merge {}).hits =
        (visited.filter fun i => validated index probes i).length ∧
      ((visited.map (concludes index probes)).foldr Outcome.merge {}).fresh.map some =
          (visited.filter fun i => validated index probes i).map
            (fun i => index.entries[i]?.map Entry.toRecord) ∧
        ((visited.map (concludes index probes)).foldr Outcome.merge {}).stale.map some =
          (visited.filter fun i => !validated index probes i).map
            fun i => index.entries[i]?.map Entry.rel := by
  induction visited with
  | nil => exact ⟨rfl, rfl, rfl⟩
  | cons i visited ih =>
    obtain ⟨hi, hrest⟩ := List.forall_mem_cons.mp h
    obtain ⟨hhits, hfresh, hstale⟩ := ih hrest
    have hentry := List.getElem?_eq_getElem hi
    rw [List.map_cons, List.foldr_cons, Outcome.merge]
    rcases turn_cases hwf hfit hentry with ⟨hvalid, hout, -⟩ | ⟨hvalid, ⟨racy, hout⟩, -⟩
    · rw [List.filter_cons_of_pos hvalid, List.filter_cons_of_neg (by simp [hvalid]), hout]
      refine ⟨?_, ?_, hstale⟩
      · rw [List.length_cons, hhits, Nat.add_comm]
      · rw [List.map_append, hfresh, List.map_cons, List.map_cons, hentry]
        rfl
    · rw [List.filter_cons_of_neg (by simp [hvalid]), List.filter_cons_of_pos (by simp [hvalid]),
        hout]
      refine ⟨?_, hfresh, ?_⟩
      · rw [hhits, Nat.zero_add]
      · rw [List.map_append, hstale, List.map_cons, List.map_cons, hentry]
        rfl

/-! ## The tree of entries -/

namespace Index.WellFormed

/-- A child comes after its parent, and is an entry. -/
lemma child_lt (hwf : index.WellFormed) {a b : ℕ} (h : index.Child a b) :
    a < b ∧ b < index.entries.length := by
  obtain ⟨entry, hentry, hb⟩ := h
  obtain ⟨ha, rfl⟩ := List.getElem?_eq_some_iff.mp hentry
  exact hwf.forward a ha b hb

/-- A descendant comes after its ancestor. -/
lemma lt_of_transGen (hwf : index.WellFormed) {a b : ℕ} (h : TransGen index.Child a b) : a < b := by
  induction h with
  | single h => exact (hwf.child_lt h).1
  | tail _ h ih => exact ih.trans (hwf.child_lt h).1

/-- No entry has two parents. -/
lemma child_unique (hwf : index.WellFormed) {a a' b : ℕ} (h : index.Child a b)
    (h' : index.Child a' b) : a = a' := by
  obtain ⟨entry, hentry, hb⟩ := h
  obtain ⟨entry', hentry', hb'⟩ := h'
  exact hwf.linked.parent_unique hentry hentry' hb hb'

/-- Every entry but the root has a parent. -/
lemma exists_parent (hwf : index.WellFormed) {i : ℕ} (hpos : 0 < i)
    (hi : i < index.entries.length) : ∃ a, index.Child a i := by
  have hmem : i ∈ claimedBy index.entries :=
    List.count_pos_iff.mp (by rw [hwf.claimed_once i hpos hi]; exact Nat.one_pos)
  obtain ⟨entry, hentry, hchild⟩ := List.mem_flatMap.mp hmem
  obtain ⟨a, ha⟩ := List.mem_iff_getElem?.mp hentry
  exact ⟨a, entry, ha, hchild⟩

/-- Of two entries above a third, one is above the other. -/
lemma transGen_total (hwf : index.WellFormed) {a a' i : ℕ} (h : TransGen index.Child a i)
    (h' : TransGen index.Child a' i) :
    a = a' ∨ TransGen index.Child a a' ∨ TransGen index.Child a' a := by
  induction h with
  | single h =>
    rcases TransGen.tail'_iff.mp h' with ⟨p, hp, hpi⟩
    obtain rfl := hwf.child_unique h hpi
    rcases Relation.reflTransGen_iff_eq_or_transGen.mp hp with heq | hp
    · exact .inl heq
    · exact .inr (.inr hp)
  | @tail p i hap hpi ih =>
    rcases TransGen.tail'_iff.mp h' with ⟨p', hp', hpi'⟩
    obtain rfl := hwf.child_unique hpi hpi'
    rcases Relation.reflTransGen_iff_eq_or_transGen.mp hp' with rfl | hp'
    · exact .inr (.inl hap)
    · exact ih hp'

end Index.WellFormed

/-! ## What is visited -/

section Visited

variable {visited : List ℕ}

/-- Everything above a visited entry is believed. -/
lemma validated_above (hwf : index.WellFormed) (hfit : ProbesFit index probes)
    (h : Unfolds (pushedBy index probes) [0] visited) {a x : ℕ} (hx : x ∈ visited)
    (ha : TransGen index.Child a x) : validated index probes a = true := by
  obtain ⟨r, hr, hreach⟩ := h.mem_iff.mp hx
  obtain rfl : r = 0 := by simpa using hr
  clear hx
  induction hreach with
  | refl => exact absurd (hwf.lt_of_transGen ha) (Nat.not_lt_zero a)
  | @tail y x _ hyx ih =>
    obtain ⟨hvalid, hchild⟩ := (mem_pushedBy_iff_child hwf hfit).mp hyx
    obtain ⟨p, hap, hpx⟩ := TransGen.tail'_iff.mp ha
    obtain rfl := hwf.child_unique hchild hpx
    rcases Relation.reflTransGen_iff_eq_or_transGen.mp hap with rfl | hap
    · exact hvalid
    · exact ih hap

/-- An entry that is not visited lies below a visited one that is not believed. -/
lemma exists_stale_above (hwf : index.WellFormed) (hfit : ProbesFit index probes)
    (h : Unfolds (pushedBy index probes) [0] visited) {i : ℕ} (hi : i < index.entries.length)
    (hnot : i ∉ visited) :
    ∃ a ∈ visited, validated index probes a = false ∧ TransGen index.Child a i := by
  induction i using Nat.strong_induction_on with
  | _ i ih =>
    have hpos : 0 < i := by
      rcases Nat.eq_zero_or_pos i with rfl | hpos
      · exact absurd (h.mem_iff.mpr ⟨0, by simp, .refl⟩) hnot
      · exact hpos
    obtain ⟨p, hp⟩ := hwf.exists_parent hpos hi
    have hlt := (hwf.child_lt hp).1
    by_cases hvisited : p ∈ visited
    · cases hvalid : validated index probes p with
      | false => exact ⟨p, hvisited, hvalid, .single hp⟩
      | true =>
        -- a believed parent is gone on from
        obtain ⟨r, hr, hreach⟩ := h.mem_iff.mp hvisited
        exact absurd (h.mem_iff.mpr ⟨r, hr,
          hreach.tail ((mem_pushedBy_iff_child hwf hfit).mpr ⟨hvalid, hp⟩)⟩) hnot
    · obtain ⟨a, ha, hvalid, hap⟩ := ih p hlt (hlt.trans hi) hvisited
      exact ⟨a, ha, hvalid, hap.tail hp⟩

/-- Just one visited entry that is not believed lies above an entry that is not visited. -/
lemma existsUnique_stale_above (hwf : index.WellFormed) (hfit : ProbesFit index probes)
    (h : Unfolds (pushedBy index probes) [0] visited) {i : ℕ} (hi : i < index.entries.length)
    (hnot : i ∉ visited) :
    ∃! a, (a ∈ visited ∧ validated index probes a = false) ∧ TransGen index.Child a i := by
  obtain ⟨a, ha, hvalid, hai⟩ := exists_stale_above hwf hfit h hi hnot
  refine ⟨a, ⟨⟨ha, hvalid⟩, hai⟩, ?_⟩
  rintro b ⟨⟨hb, hvalid'⟩, hbi⟩
  rcases hwf.transGen_total hbi hai with heq | hba | hab
  · exact heq
  · rw [validated_above hwf hfit h ha hba] at hvalid'
    cases hvalid'
  · rw [validated_above hwf hfit h hb hab] at hvalid
    cases hvalid

/-- Where every entry is believed, every entry is visited. -/
lemma mem_visited_of_validated (hwf : index.WellFormed) (hfit : ProbesFit index probes)
    (h : Unfolds (pushedBy index probes) [0] visited)
    (hall : ∀ i < index.entries.length, validated index probes i = true)
    (hbounds : ∀ i ∈ visited, i < index.entries.length) {i : ℕ} (hi : i < index.entries.length) :
    i ∈ visited := by
  by_contra hnot
  obtain ⟨a, ha, hvalid, -⟩ := exists_stale_above hwf hfit h hi hnot
  rw [hall a (hbounds a ha)] at hvalid
  cases hvalid

end Visited

end

/-- Some of the numbers below `n`, and the rest. -/
lemma perm_append_filter_not_mem {visited : List ℕ} {n : ℕ} (hnodup : visited.Nodup)
    (hbounds : ∀ i ∈ visited, i < n) :
    (visited ++ (List.range n).filter (fun i => i ∉ visited)).Perm (List.range n) := by
  have hmem : ∀ {i}, i ∈ (List.range n).filter (fun i => i ∉ visited) ↔ i < n ∧ i ∉ visited := by
    simp
  refine (List.perm_ext_iff_of_nodup ?_ List.nodup_range).mpr fun i => ?_
  · exact List.nodup_append'.mpr ⟨hnodup, List.nodup_range.filter _,
      fun i hi hskip => (hmem.mp hskip).2 hi⟩
  · rw [List.mem_append, hmem, List.mem_range]
    constructor
    · rintro (hi | ⟨hi, -⟩)
      · exact hbounds i hi
      · exact hi
    · intro hi
      by_cases hvisited : i ∈ visited
      · exact .inl hvisited
      · exact .inr ⟨hi, hvisited⟩

/-- **No file makes the validation pass loop, read out of bounds or visit an entry twice**: decoding
does not panic, its cursor does not pass the end, a count never admits more items than the bytes
that are left could hold, and the pass over a decoded index ends with each entry either counted and
recorded once, or handed back to the walker once, or below exactly one entry that was handed
back. -/
theorem pass_partitions :
    (∀ bytes, decodeChecked bytes = .ok (Index.decode bytes)) ∧
    (∀ (n : ℕ) (reader reader' : RawReader) (taken : Bytes),
      Checked.take n reader = .ok (some (taken, reader')) →
        reader'.at_ ≤ reader'.bytes.length) ∧
    (∀ (each n : ℕ) (reader reader' : RawReader),
      Checked.count each reader = .ok (some (n, reader')) →
        n * each ≤ reader'.bytes.length - reader'.at_) ∧
    ∀ (bytes : Bytes) (index : Index) (probes : List Probe),
      Index.decode bytes = some index → ProbesFit index probes →
      ∃ (out : Outcome) (hits stale skipped : List ℕ), walkIndex index probes = some out ∧
        (hits ++ stale ++ skipped).Perm (List.range index.entries.length) ∧
        out.hits = hits.length ∧
        out.fresh.map some = hits.map (fun i => index.entries[i]?.map Entry.toRecord) ∧
        out.stale.map some = stale.map (fun i => index.entries[i]?.map Entry.rel) ∧
        (∀ i ∈ hits, validated index probes i = true) ∧
        (∀ i ∈ stale, validated index probes i = false) ∧
        (∀ i ∈ skipped, ∃! a, a ∈ stale ∧ TransGen index.Child a i) ∧
        (∀ i ∈ hits ++ stale, ∀ a ∈ stale, ¬TransGen index.Child a i) ∧
        ((∀ i < index.entries.length, validated index probes i = true) →
          out.hits = index.entries.length ∧ out.stale = []) := by
  refine ⟨decodeChecked_eq, fun n reader reader' taken h => take_within h,
    fun each n reader reader' h => (count_within h).2, fun bytes index probes hdecode hfit => ?_⟩
  have hwf := (Index.decode_eq_some_iff.mp hdecode).1
  obtain ⟨visited, hvisited, hnodup, hbounds, hwalk⟩ :=
    walkIndex_eq hwf.linked probes hfit.length_eq
  obtain ⟨hhits, hfresh, hstale⟩ := foldr_concludes hwf hfit hbounds
  have hmemStale : ∀ {a}, a ∈ visited.filter (fun i => !validated index probes i) ↔
      a ∈ visited ∧ validated index probes a = false := by simp
  have hsplit : (visited.filter (fun i => validated index probes i) ++
      visited.filter fun i => !validated index probes i).Perm visited :=
    List.filter_append_perm _ _
  refine ⟨_, _, _, (List.range index.entries.length).filter (fun i => i ∉ visited), hwalk,
    (hsplit.append_right _).trans (perm_append_filter_not_mem hnodup hbounds), hhits, hfresh,
    hstale, by simp, by simp, fun i hi => ?_, fun i hi a ha habove => ?_, fun hall => ?_⟩
  · obtain ⟨hlt, hnot⟩ : i < index.entries.length ∧ i ∉ visited := by simpa using hi
    simp only [hmemStale]
    exact existsUnique_stale_above hwf hfit hvisited hlt hnot
  · obtain ⟨-, hvalid⟩ := hmemStale.mp ha
    rw [validated_above hwf hfit hvisited (hsplit.mem_iff.mp hi) habove] at hvalid
    cases hvalid
  · have hperm : visited.Perm (List.range index.entries.length) :=
      (List.perm_ext_iff_of_nodup hnodup List.nodup_range).mpr fun i => by
        rw [List.mem_range]
        exact ⟨hbounds i, mem_visited_of_validated hwf hfit hvisited hall hbounds⟩
    refine ⟨?_, List.map_eq_nil_iff.mp (hstale.trans ?_)⟩
    · rw [hhits, List.filter_eq_self.mpr fun i hi => hall i (hbounds i hi), hperm.length_eq,
        List.length_range]
    · rw [List.map_eq_nil_iff, List.filter_eq_nil_iff]
      exact fun i hi => by simp [hall i (hbounds i hi)]

/-- The sample index, written long after its directories last changed. -/
def oldSampleIndex : Index := { sampleIndex with writtenNs := 3000000000 }

/-- What is found when the directory in the sample index has changed. -/
def sampleProbes : List Probe := [.dir 7, .dir 0, .repo, .repo]

/-- The probes of the sample fit its index. -/
lemma probesFit_sample : ProbesFit oldSampleIndex sampleProbes where
  length_eq := rfl
  repo {i entry} hentry hprobe := by
    match i with
    | 0 | 1 => cases hprobe
    | 2 | 3 => cases hentry; rfl
    | i + 4 => cases hprobe
  dir {i entry mtime} hentry hprobe := by
    match i with
    | 0 | 1 => cases hentry; rfl
    | 2 | 3 => cases hprobe
    | i + 4 => cases hprobe

/-- The root and the bare repository hold, the directory goes back to the walker, and the repository
in it is not visited. -/
theorem pass_partitions_sample :
    ∃ (out : Outcome) (hits stale skipped : List ℕ),
      walkIndex oldSampleIndex sampleProbes = some out ∧
        (hits ++ stale ++ skipped).Perm (List.range 4) ∧
        out.hits = hits.length ∧
        (∀ i ∈ stale, validated oldSampleIndex sampleProbes i = false) ∧
        ∀ i ∈ skipped, ∃! a, a ∈ stale ∧ TransGen oldSampleIndex.Child a i := by
  have hwf : oldSampleIndex.WellFormed := { sampleIndex_wellFormed with }
  obtain ⟨out, hits, stale, skipped, hwalk, hperm, hhits, -, -, -, hstale, hskipped, -⟩ :=
    pass_partitions.2.2.2 oldSampleIndex.encode oldSampleIndex sampleProbes
      hwf.decode_encode probesFit_sample
  exact ⟨out, hits, stale, skipped, hwalk, hperm, hhits, hstale, hskipped⟩

end Scap
