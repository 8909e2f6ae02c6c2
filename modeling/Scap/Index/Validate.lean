import Scap.Foundations.Forest
import Scap.Index.Build

/-!
# Validating an index

The top-down pass that decides per entry between reuse and re-walk (`src/index.rs`, `walk_index`,
`is_racy`, `probe`, `probe_all`).

The pass is a traversal of the recorded tree that stops below every entry it does not believe.
`walkIndex_eq` says so for every linked index and every list of probes as long as the entries:
the loop ends, within bounds, after visiting each of these entries once.
-/

namespace Scap

/-- How close to the index's own write time an observed mtime may sit before the entry is treated as
changed. -/
def RACY_WINDOW_NS : Int64 := 2000000000

/-- What one entry's `stat` found. -/
inductive Probe where
  /-- Still a directory, with this mtime. -/
  | dir (mtimeNs : Int64)
  /-- Still a repository. -/
  | repo
  /-- Gone, replaced, or no longer a repository. -/
  | stale
deriving Repr, DecidableEq

/-- What the top-down validation pass concluded. -/
structure Outcome where
  /-- Entries that validated, with the mtimes just observed. -/
  fresh : List Record := []
  /-- Root-relative paths handed back to the walker. -/
  stale : List Bytes := []
  /-- How many entries validated. -/
  hits : ℕ := 0
  /-- How many entries were too recent to believe. -/
  racy : ℕ := 0
deriving Repr, DecidableEq

/-- Adds the conclusions about further entries. -/
def Outcome.merge (out other : Outcome) : Outcome :=
  ⟨out.fresh ++ other.fresh, out.stale ++ other.stale, out.hits + other.hits, out.racy + other.racy⟩

/-- `is_racy`: whether an observed mtime is too close to the index's write time to be evidence. -/
def isRacy (observedNs writtenNs : Int64) : Bool :=
  saturatingSub writtenNs RACY_WINDOW_NS < observedNs

/-- One turn of the loop of `walk_index`: what it concludes about the entry, and the entries it
pushes. -/
def visitEntry (writtenNs : Int64) (entry : Entry) (probe : Probe) : Outcome × List ℕ :=
  match probe, entry.mtimeNs with
  | .repo, _ => ({ fresh := [.repo entry.rel], hits := 1 }, [])
  | .dir observed, some recorded =>
    if observed = recorded then
      if isRacy observed writtenNs then ({ stale := [entry.rel], racy := 1 }, [])
      else ({ fresh := [.dir entry.rel observed], hits := 1 }, entry.childIndices)
    else ({ stale := [entry.rel] }, [])
  | _, _ => ({ stale := [entry.rel] }, [])

/-- The turn for entry `i`; `none` is an index out of bounds. -/
def visitIndex (index : Index) (probes : List Probe) (i : ℕ) : Option (Outcome × List ℕ) := do
  let entry ← index.entries[i]?
  let probe ← probes[i]?
  some (visitEntry index.writtenNs entry probe)

/-- The loop of `walk_index`, with the top of the stack first, for a number of turns; `none` is an
index out of bounds or a loop that has not ended. -/
def walkLoop (index : Index) (probes : List Probe) : ℕ → List ℕ → Option Outcome
  | _, [] => some {}
  | 0, _ :: _ => none
  | fuel + 1, i :: stack => do
    let (out, pushed) ← visitIndex index probes i
    let rest ← walkLoop index probes fuel (pushed.reverse ++ stack)
    some (out.merge rest)

/-- `walk_index`.  As many turns as there are entries are enough. -/
def walkIndex (index : Index) (probes : List Probe) : Option Outcome :=
  walkLoop index probes index.entries.length [0]

/-! ## Probing -/

/-- `probe`: one entry's validation `stat`. -/
def probe (sys : Sys) (rootName : Bytes) (entry : Entry) : Probe :=
  if entry.isRepo then
    let name := if entry.rel = [] then rootName else basename entry.rel
    if dotGit <:+ name then .repo
    else
      let path := joinRel entry.rel dotGit
      if path.contains 0 then .stale
      else if succeeds (sys.stat .probe path) then .repo else .stale
  else
    let path := if entry.rel = [] then dot else entry.rel
    if path.contains 0 then .stale
    else
      match sys.lstat path with
      | .ok stat => if stat.fileType = .directory then .dir (mtimeNs stat) else .stale
      | .error _ => .stale

/-- Only a repository entry is still a repository. -/
lemma isRepo_of_probe {sys : Sys} {rootName : Bytes} {entry : Entry}
    (h : probe sys rootName entry = .repo) : entry.isRepo = true := by
  cases hrepo : entry.isRepo with
  | true => rfl
  | false =>
    simp only [probe, hrepo, Bool.false_eq_true, if_false] at h
    split_ifs at h
    all_goals
      split at h
      · split_ifs at h
      · cases h

/-- Only a directory entry is still a directory. -/
lemma isRepo_of_probe_dir {sys : Sys} {rootName : Bytes} {entry : Entry} {mtime : Int64}
    (h : probe sys rootName entry = .dir mtime) : entry.isRepo = false := by
  cases hrepo : entry.isRepo with
  | false => rfl
  | true =>
    simp only [probe, hrepo, if_true] at h
    split_ifs at h

/-- `slice::chunks`. -/
def chunks {α : Type} (size : ℕ) : List α → List (List α)
  | [] => []
  | x :: xs => (x :: xs.take (size - 1)) :: chunks size (xs.drop (size - 1))
termination_by xs => xs.length

/-- `probe_all`: each thread probes one chunk of the entries. -/
def probeAll (sys : Sys) (rootName : Bytes) (index : Index) (threads : ℕ) : List Probe :=
  let n := index.entries.length
  let chunk := max 1 ((n + max 1 threads - 1) / max 1 threads)
  (chunks chunk index.entries).flatMap fun ents => ents.map (probe sys rootName)

/-- The chunks of a list are the list. -/
lemma flatten_chunks {α : Type} (size : ℕ) (xs : List α) : (chunks size xs).flatten = xs := by
  fun_induction chunks size xs with
  | case1 => rfl
  | case2 x xs ih => rw [List.flatten_cons, ih, List.cons_append, List.take_append_drop]

/-- However the entries are divided among the threads, each is probed once and in its place. -/
lemma probeAll_eq (sys : Sys) (rootName : Bytes) (index : Index) (threads : ℕ) :
    probeAll sys rootName index threads = index.entries.map (probe sys rootName) := by
  rw [probeAll, ← List.map_flatMap, List.flatMap_id', flatten_chunks]

/-! ## The pass -/

section Pass

variable {index : Index} {probes : List Probe}

/-- The entries the pass goes on to from entry `i`. -/
def pushedBy (index : Index) (probes : List Probe) (i : ℕ) : List ℕ :=
  ((visitIndex index probes i).elim [] Prod.snd).reverse

/-- What the pass concludes about entry `i`. -/
def concludes (index : Index) (probes : List Probe) (i : ℕ) : Outcome :=
  (visitIndex index probes i).elim {} Prod.fst

/-- What can come of an entry: it validates as a repository, it validates as a directory, or its
path goes back to the walker. -/
lemma visitEntry_cases (writtenNs : Int64) (entry : Entry) (probe : Probe) :
    (probe = .repo ∧
      visitEntry writtenNs entry probe = ({ fresh := [.repo entry.rel], hits := 1 }, [])) ∨
    (∃ mtime, probe = .dir mtime ∧ entry.mtimeNs = some mtime ∧ isRacy mtime writtenNs = false ∧
      visitEntry writtenNs entry probe =
        ({ fresh := [.dir entry.rel mtime], hits := 1 }, entry.childIndices)) ∨
    (probe ≠ .repo ∧ (∀ mtime, probe = .dir mtime → entry.mtimeNs = some mtime →
        isRacy mtime writtenNs = true) ∧
      ∃ racy, visitEntry writtenNs entry probe = ({ stale := [entry.rel], racy := racy }, [])) := by
  cases probe with
  | repo => exact .inl ⟨rfl, rfl⟩
  | stale => exact .inr (.inr ⟨by simp, by simp, 0, rfl⟩)
  | dir observed =>
    refine .inr ?_
    cases hrecorded : entry.mtimeNs with
    | none => exact .inr ⟨by simp, by simp, 0, by simp [visitEntry, hrecorded]⟩
    | some recorded =>
      by_cases hsame : observed = recorded
      · subst hsame
        cases hracy : isRacy observed writtenNs with
        | false => exact .inl ⟨observed, rfl, rfl, hracy, by simp [visitEntry, hrecorded, hracy]⟩
        | true =>
          refine .inr ⟨by simp, ?_, 1, by simp [visitEntry, hrecorded, hracy]⟩
          rintro mtime heq -
          obtain rfl : observed = mtime := by simpa using heq
          exact hracy
      · refine .inr ⟨by simp, ?_, 0, by simp [visitEntry, hrecorded, hsame]⟩
        rintro mtime hobserved hmtime
        obtain rfl : observed = mtime := by simpa using hobserved
        exact absurd (by simpa using hmtime.symm) hsame

/-- An entry is visited with its own probe. -/
lemma visitIndex_eq {i : ℕ} {entry : Entry} {probe : Probe}
    (hentry : index.entries[i]? = some entry) (hprobe : probes[i]? = some probe) :
    visitIndex index probes i = some (visitEntry index.writtenNs entry probe) := by
  simp [visitIndex, hentry, hprobe]

/-- The loop adds up its conclusions along the traversal. -/
lemma walkLoop_eq {stack visited : List ℕ} (h : Unfolds (pushedBy index probes) stack visited)
    {fuel : ℕ} (hfuel : visited.length ≤ fuel)
    (hbounds : ∀ i ∈ visited, i < index.entries.length ∧ i < probes.length) :
    walkLoop index probes fuel stack =
      some ((visited.map (concludes index probes)).foldr Outcome.merge {}) := by
  induction h generalizing fuel with
  | nil => cases fuel <;> rfl
  | @cons i stack visited _ ih =>
    cases fuel with
    | zero => simp at hfuel
    | succ fuel =>
      obtain ⟨hentry, hprobe⟩ := hbounds i (by simp)
      obtain ⟨⟨out, pushed⟩, hturn⟩ : ∃ turn, visitIndex index probes i = some turn :=
        ⟨_, visitIndex_eq (List.getElem?_eq_getElem hentry) (List.getElem?_eq_getElem hprobe)⟩
      have hpushed : pushedBy index probes i = pushed.reverse := by simp [pushedBy, hturn]
      have hconcludes : concludes index probes i = out := by simp [concludes, hturn]
      rw [hpushed] at ih
      have hrest := ih (by simpa using hfuel) fun j hj => hbounds j (by simp [hj])
      simp [walkLoop, hturn, hrest, hconcludes]

/-- What the pass pushes from an entry is the entry's children, or nothing. -/
lemma pushedBy_eq (index : Index) (probes : List Probe) (i : ℕ) : pushedBy index probes i = [] ∨
    ∃ entry, index.entries[i]? = some entry ∧
      pushedBy index probes i = entry.childIndices.reverse := by
  cases hentry : index.entries[i]? with
  | none => exact .inl (by simp [pushedBy, visitIndex, hentry])
  | some entry =>
    cases hprobe : probes[i]? with
    | none => exact .inl (by simp [pushedBy, visitIndex, hentry, hprobe])
    | some probe =>
      rw [pushedBy, visitIndex_eq hentry hprobe]
      rcases visitEntry_cases index.writtenNs entry probe with
        ⟨-, hvisit⟩ | ⟨mtime, -, -, -, hvisit⟩ | ⟨-, -, racy, hvisit⟩
      · exact .inl (by simp [hvisit])
      · exact .inr ⟨entry, rfl, by simp [hvisit]⟩
      · exact .inl (by simp [hvisit])

/-- The child lists of an index form a tree: children come after their parents, and no entry is
claimed twice. -/
structure Index.Linked (index : Index) : Prop where
  nonempty : index.entries ≠ []
  forward : ∀ k (hk : k < index.entries.length), ∀ c ∈ index.entries[k].childIndices,
    k < c ∧ c < index.entries.length
  nodup_claimedBy : (claimedBy index.entries).Nodup

/-- The entries of a well-formed index are linked to their children. -/
lemma Index.WellFormed.linked (h : index.WellFormed) : index.Linked where
  nonempty hnil := by
    have hroot := h.root_rel
    simp [hnil] at hroot
  forward := h.forward
  nodup_claimedBy := h.nodup_claimedBy

/-- The entries that represent records are linked to their children. -/
lemma Represents.linked {records : List Record} (h : Represents index.entries records) :
    index.Linked where
  nonempty hnil := by
    have hroot := h.root_rel
    simp [hnil] at hroot
  forward := h.forward
  nodup_claimedBy := h.nodup_claimedBy

/-- Two entries of a linked index have no child in common. -/
lemma Index.Linked.parent_unique (h : index.Linked) {i j : ℕ} {a b : Entry}
    (ha : index.entries[i]? = some a) (hb : index.entries[j]? = some b) {c : ℕ}
    (hca : c ∈ a.childIndices) (hcb : c ∈ b.childIndices) : i = j := by
  obtain ⟨hi, rfl⟩ := List.getElem?_eq_some_iff.mp ha
  obtain ⟨hj, rfl⟩ := List.getElem?_eq_some_iff.mp hb
  have hapart := List.pairwise_iff_getElem.mp (List.nodup_flatMap.mp h.nodup_claimedBy).2
  rcases Nat.lt_trichotomy i j with hij | rfl | hji
  · exact absurd hcb (hapart i j hi hj hij hca)
  · rfl
  · exact absurd hca (hapart j i hj hi hji hcb)

/-- The pass over a linked index ends, in bounds, without visiting an entry twice. -/
theorem walkIndex_eq (h : index.Linked) (probes : List Probe)
    (hprobes : probes.length = index.entries.length) :
    ∃ visited, Unfolds (pushedBy index probes) [0] visited ∧ visited.Nodup ∧
      (∀ i ∈ visited, i < index.entries.length) ∧
      walkIndex index probes =
        some ((visited.map (concludes index probes)).foldr Outcome.merge {}) := by
  have hpushed : ∀ i, ∀ c ∈ pushedBy index probes i, ∃ entry, index.entries[i]? = some entry ∧
      c ∈ entry.childIndices := by
    intro i c hc
    rcases pushedBy_eq index probes i with hnil | ⟨entry, hentry, hchildren⟩
    · simp [hnil] at hc
    · exact ⟨entry, hentry, by simpa [hchildren] using hc⟩
  have hforward : ∀ i, ∀ c ∈ pushedBy index probes i, i < c ∧ c < index.entries.length := by
    intro i c hc
    obtain ⟨entry, hentry, hc⟩ := hpushed i c hc
    obtain ⟨hi, rfl⟩ := List.getElem?_eq_some_iff.mp hentry
    exact h.forward i hi c hc
  have hrank : ∀ i, ∀ c ∈ pushedBy index probes i,
      index.entries.length - c < index.entries.length - i := by
    intro i c hc
    have := hforward i c hc
    omega
  obtain ⟨visited, hvisited⟩ := Unfolds.exists_of_rank (fun i => index.entries.length - i) hrank [0]
  have hnodup : visited.Nodup := by
    refine hvisited.nodup _ hrank (fun i => ?_) (fun i j c hi hj => ?_) (List.pairwise_singleton ..)
    · rcases pushedBy_eq index probes i with hnil | ⟨entry, hentry, hchildren⟩
      · simp [hnil]
      · rw [hchildren, List.nodup_reverse]
        exact (List.nodup_flatMap.mp h.nodup_claimedBy).1 entry (List.mem_of_getElem? hentry)
    · obtain ⟨a, ha, hca⟩ := hpushed i c hi
      obtain ⟨b, hb, hcb⟩ := hpushed j c hj
      exact h.parent_unique ha hb hca hcb
  have hroot : 0 < index.entries.length := List.length_pos_of_ne_nil h.nonempty
  have hbounds : ∀ i ∈ visited, i < index.entries.length := by
    intro i hi
    obtain ⟨r, hr, hreach⟩ := hvisited.mem_iff.mp hi
    obtain rfl : r = 0 := by simpa using hr
    rcases hreach.cases_tail with rfl | ⟨j, -, hj⟩
    · exact hroot
    · exact (hforward j i hj).2
  -- Distinct indices in range: as many turns as there are entries are enough.
  have hfuel : visited.length ≤ index.entries.length := by
    have hsub : visited ⊆ List.range index.entries.length := fun i hi =>
      List.mem_range.mpr (hbounds i hi)
    simpa using (hnodup.subperm hsub).length_le
  exact ⟨visited, hvisited, hnodup, hbounds,
    walkLoop_eq hvisited hfuel fun i hi => ⟨hbounds i hi, hprobes ▸ hbounds i hi⟩⟩

end Pass

/-- The fresh entries of merged outcomes are those of each of them. -/
@[simp] lemma foldr_merge_fresh (outs : List Outcome) :
    (outs.foldr Outcome.merge {}).fresh = outs.flatMap Outcome.fresh := by
  induction outs with
  | nil => rfl
  | cons out outs ih => rw [List.foldr_cons, List.flatMap_cons, ← ih, Outcome.merge]

/-- The stale entries of merged outcomes are those of each of them. -/
@[simp] lemma foldr_merge_stale (outs : List Outcome) :
    (outs.foldr Outcome.merge {}).stale = outs.flatMap Outcome.stale := by
  induction outs with
  | nil => rfl
  | cons out outs ih => rw [List.foldr_cons, List.flatMap_cons, ← ih, Outcome.merge]

end Scap
