import Mathlib.Data.List.GetD
import Mathlib.Tactic.IntervalCases
import Scap.Index.Format

/-!
# The index file round-trips

`Index.decode_eq_some_iff` is the full description of the decoder.  It is assembled from the exact
scanners of `Foundations/Cursor.lean`, one for each accessor of `Reader` and each loop body of
`decode`.  The loop over the entries carries the claimed-entries vector as its state; the invariant
`Claims` says which entries that vector has recorded, and turns the decoder's running checks into
the statement that every entry but the root is exactly one entry's child.
-/

namespace Scap

open Cursor

/-! ## The accessors of the reader -/

/-- Reading a byte is exact. -/
lemma Reader.u8_exact : Exact Reader.u8 (fun b => [b]) (fun _ => True) := by
  intro r b r'
  simp only [Reader.u8, Option.bind_eq_bind, Option.bind_eq_some_iff, Prod.exists,
    take_eq_some_iff, Option.some.injEq, Prod.mk.injEq, true_and]
  constructor
  · rintro ⟨bs, r₁, ⟨hlen, hc⟩, b', hhead, rfl, rfl⟩
    obtain ⟨a, rfl⟩ := List.length_eq_one_iff.mp hlen
    obtain rfl : a = b' := by simpa using hhead
    exact hc
  · intro hc
    exact ⟨[b], r', ⟨rfl, hc⟩, b, rfl, rfl, rfl⟩

/-- Reading a `u32` is exact. -/
lemma Reader.u32_exact : Exact Reader.u32 u32Bytes (fun _ => True) := by
  intro r x r'
  simp only [Reader.u32, Option.bind_eq_bind, Option.bind_eq_some_iff, Prod.exists,
    take_eq_some_iff, Option.some.injEq, Prod.mk.injEq, true_and]
  constructor
  · rintro ⟨bs, r₁, ⟨hlen, hc⟩, rfl, rfl⟩
    have hlt : leNat bs < 2 ^ 32 := by simpa [hlen] using leNat_lt bs
    rwa [u32Bytes, UInt32.toNat_ofNat_of_lt' hlt, ← hlen, leBytes_leNat]
  · intro hc
    refine ⟨u32Bytes x, r', ⟨leBytes_length .., hc⟩, ?_, rfl⟩
    rw [u32Bytes, leNat_leBytes (by simpa using x.toNat_lt), UInt32.ofNat_toNat]

/-- Reading a `u64` is exact. -/
lemma Reader.u64_exact : Exact Reader.u64 u64Bytes (fun _ => True) := by
  intro r x r'
  simp only [Reader.u64, Option.bind_eq_bind, Option.bind_eq_some_iff, Prod.exists,
    take_eq_some_iff, Option.some.injEq, Prod.mk.injEq, true_and]
  constructor
  · rintro ⟨bs, r₁, ⟨hlen, hc⟩, rfl, rfl⟩
    have hlt : leNat bs < 2 ^ 64 := by simpa [hlen] using leNat_lt bs
    rwa [u64Bytes, UInt64.toNat_ofNat_of_lt' hlt, ← hlen, leBytes_leNat]
  · intro hc
    refine ⟨u64Bytes x, r', ⟨leBytes_length .., hc⟩, ?_, rfl⟩
    rw [u64Bytes, leNat_leBytes (by simpa using x.toNat_lt), UInt64.ofNat_toNat]

/-- Reading an `i64` is exact. -/
lemma Reader.i64_exact : Exact Reader.i64 i64Bytes (fun _ => True) := by
  intro r x r'
  simp only [Reader.i64, Option.bind_eq_bind, Option.bind_eq_some_iff, Prod.exists,
    Reader.u64_exact .., Option.some.injEq, Prod.mk.injEq, true_and]
  constructor
  · rintro ⟨y, r₁, hc, rfl, rfl⟩
    rwa [i64Bytes, UInt64.toUInt64_toInt64]
  · intro hc
    exact ⟨x.toUInt64, r', hc, Int64.toInt64_toUInt64 x, rfl⟩

/-- A length that fits in a `u32` is written as it is. -/
lemma pushLen_of_lt {len : ℕ} (h : len < 2 ^ 32) : pushLen len = u32Bytes (UInt32.ofNat len) := by
  rw [pushLen, if_pos h, u32Bytes, UInt32.toNat_ofNat_of_lt' h]

/-- The length prefix of as many items as a `u32` counts is that `u32`. -/
lemma pushLen_toNat (n : UInt32) : pushLen n.toNat = u32Bytes n := by
  rw [pushLen_of_lt n.toNat_lt, UInt32.ofNat_toNat]

/-- Reading a string of bytes with its length is exact. -/
lemma Reader.bytes_exact : Exact Reader.bytes pushBytes (fun bs => bs.length < 2 ^ 32) := by
  intro r bs r'
  simp only [Reader.bytes, Option.bind_eq_bind, Option.bind_eq_some_iff, Prod.exists,
    Reader.u32_exact .., take_eq_some_iff, true_and, pushBytes, consumes_append_iff]
  constructor
  · rintro ⟨n, r₁, hn, hlen, hc⟩
    refine ⟨hlen ▸ n.toNat_lt, r₁, ?_, hc⟩
    rwa [hlen, pushLen_toNat]
  · rintro ⟨hlt, r₁, hn, hc⟩
    refine ⟨UInt32.ofNat bs.length, r₁, ?_, ?_, hc⟩
    · rwa [← pushLen_of_lt hlt]
    · rw [UInt32.toNat_ofNat_of_lt' hlt]

/-! ## Counted lists -/

/-- A counted list: the length prefix followed by the items.  The pre-check of `count` never rejects
one, because each item takes at least `e` bytes. -/
lemma count_many_iff {β σ : Type} {p : ℕ → σ → Reader → Option ((β × σ) × Reader)}
    {enc : β → Bytes} {ok : ℕ → σ → β → Prop} {next : ℕ → σ → β → σ}
    (h : ∀ n, ExactStep (p n) enc (ok n) (next n)) {e : ℕ}
    (hmin : ∀ v, e ≤ (enc v).length) (s : ℕ → σ) (r : Reader) (vs : List β) (s' : σ)
    (r' : Reader) :
    (∃ n r₁, Reader.count r e = some (n, r₁) ∧ many (p n) n (s n) r₁ = some ((vs, s'), r')) ↔
      (vs.length < 2 ^ 32 ∧ AllOk (ok vs.length) (next vs.length) (s vs.length) vs ∧
        s' = vs.foldl (next vs.length) (s vs.length)) ∧
      Consumes r r' (pushLen vs.length ++ vs.flatMap enc) := by
  simp only [Reader.count, Option.bind_eq_bind, Option.bind_eq_some_iff, Prod.exists,
    Reader.u32_exact .., true_and, consumes_append_iff, (h _).many _ _ _ _ _ _]
  constructor
  · rintro ⟨_, _, ⟨n, r₁, hn, hcount⟩, ⟨⟨hlen, hall⟩, hs⟩, hc⟩
    split at hcount
    · simp only [Option.some.injEq, Prod.mk.injEq] at hcount
      obtain ⟨rfl, rfl⟩ := hcount
      refine ⟨⟨hlen ▸ n.toNat_lt, by rwa [hlen], by rwa [hlen]⟩, r₁, ?_, hc⟩
      rwa [hlen, pushLen_toNat]
    · cases hcount
  · rintro ⟨⟨hlt, hall, hs⟩, r₁, hn, hc⟩
    have hn' : (UInt32.ofNat vs.length).toNat = vs.length := UInt32.toNat_ofNat_of_lt' hlt
    refine ⟨vs.length, r₁, ⟨UInt32.ofNat vs.length, r₁, ?_, ?_⟩, ⟨⟨rfl, hall⟩, hs⟩, hc⟩
    · rwa [← pushLen_of_lt hlt]
    · -- the items themselves are still unread, so the bytes left are enough for the pre-check
      have hleft : vs.length * e ≤ r₁.items.length - r₁.pos := by
        rw [← rest_length, hc.2, List.length_append]
        exact (length_mul_le_flatMap hmin vs).trans (Nat.le_add_right _ _)
      rw [hn', if_pos hleft]

/-! ## The loop bodies -/

/-- The edge `child` of entry `i` is one `decode` accepts. -/
def ChildOk (total i : ℕ) (parents : List Bool) (child : UInt32) : Prop :=
  i < child.toNat ∧ child.toNat < total ∧ parents.getD child.toNat false = false

/-- `parents[child] = true`. -/
def claim (parents : List Bool) (child : UInt32) : List Bool := parents.set child.toNat true

/-- Reading a child index is exact. -/
lemma readChild_exact (total i : ℕ) :
    ExactStep (readChild total i) u32Bytes (ChildOk total i) claim := by
  intro parents r child parents' r'
  simp only [readChild, Option.bind_eq_bind, Option.bind_eq_some_iff, Prod.exists,
    Reader.u32_exact .., true_and]
  constructor
  · rintro ⟨c, r₁, hc, heq⟩
    split at heq
    · cases heq
    · rename_i hbad
      simp only [Option.some.injEq, Prod.mk.injEq] at heq
      obtain ⟨⟨rfl, rfl⟩, rfl⟩ := heq
      push Not at hbad
      exact ⟨⟨⟨hbad.1, hbad.2.1, by simpa using hbad.2.2⟩, rfl⟩, hc⟩
  · rintro ⟨⟨⟨hlt, hle, hfree⟩, rfl⟩, hc⟩
    refine ⟨child, r', hc, ?_⟩
    rw [if_neg]
    · rfl
    · rintro (h | h | h)
      · omega
      · omega
      · rw [hfree] at h
        cases h

/-- The entry is one the body of `decode`'s entry loop accepts. -/
def EntryOk (total : ℕ) (st : ℕ × List Bool) (entry : Entry) : Prop :=
  entry.rel.length < 2 ^ 32 ∧ isSafeRel entry.rel = true ∧
    (entry.mtimeNs = none → entry.children = []) ∧ entry.children.length < 2 ^ 32 ∧
      AllOk (ChildOk total st.1) claim st.2 entry.children

/-- The state after the entry: the next index, and the entry's children claimed. -/
def nextEntry (st : ℕ × List Bool) (entry : Entry) : ℕ × List Bool :=
  (st.1 + 1, entry.children.foldl claim st.2)

/-- A repository is written as a zero byte and its path. -/
lemma Entry.encode_repo (rel : Bytes) (children : List UInt32) :
    Entry.encode ⟨rel, none, children⟩ = [0] ++ pushBytes rel := by
  simp [Entry.encode]

/-- A directory is written as a one byte, its path, its mtime and its children. -/
lemma Entry.encode_dir (rel : Bytes) (mtime : Int64) (children : List UInt32) :
    Entry.encode ⟨rel, some mtime, children⟩ = [1] ++ (pushBytes rel ++ (i64Bytes mtime ++
      (pushLen children.length ++ children.flatMap u32Bytes))) := by
  simp [Entry.encode]

/-- Reading an entry is exact. -/
lemma readEntry_exact (total : ℕ) :
    ExactStep (readEntry total) Entry.encode (EntryOk total) nextEntry := by
  rintro ⟨i, parents⟩ r entry st' r'
  have hchildren := fun r₁ r₂ (cs : List UInt32) (ps : List Bool) =>
    count_many_iff (fun _ => readChild_exact total i) (e := 4)
      (fun c => (leBytes_length 4 c.toNat).ge) (fun _ => parents) r₁ cs ps r₂
  simp only [readEntry, Option.bind_eq_bind, Option.bind_eq_some_iff, Prod.exists,
    Reader.u8_exact .., Reader.bytes_exact .., true_and]
  constructor
  · rintro ⟨kind, r₁, hkind, rel, r₂, ⟨hrel, hc₂⟩, heq⟩
    split at heq
    · cases heq
    rename_i hsafe
    split at heq
    · rename_i hzero
      simp only [Option.some.injEq, Prod.mk.injEq] at heq
      obtain ⟨⟨rfl, rfl⟩, rfl⟩ := heq
      refine ⟨⟨⟨hrel, by simpa using hsafe, fun _ => rfl, by simp, trivial⟩, rfl⟩, ?_⟩
      rw [Entry.encode_repo, consumes_append_iff]
      exact ⟨r₁, hzero ▸ hkind, hc₂⟩
    split at heq
    · rename_i hone
      simp only [Option.bind_eq_some_iff, Prod.exists, Reader.i64_exact .., true_and] at heq
      obtain ⟨mtime, r₃, hc₃, n, r₄, hn, cs, ps, r₅, hmany, heq⟩ := heq
      simp only [Option.some.injEq, Prod.mk.injEq] at heq
      obtain ⟨⟨rfl, rfl⟩, rfl⟩ := heq
      obtain ⟨⟨hlt, hall, rfl⟩, hc₅⟩ := (hchildren _ _ _ _).mp ⟨n, r₄, hn, hmany⟩
      refine ⟨⟨⟨hrel, by simpa using hsafe, by simp, hlt, hall⟩, rfl⟩, ?_⟩
      rw [Entry.encode_dir]
      exact consumes_append_iff.mpr ⟨r₁, hone ▸ hkind, consumes_append_iff.mpr ⟨r₂, hc₂,
        consumes_append_iff.mpr ⟨r₃, hc₃, hc₅⟩⟩⟩
    · cases heq
  · obtain ⟨rel, mtime, children⟩ := entry
    rintro ⟨⟨⟨hrel, hsafe, hrepo, hlt, hall⟩, rfl⟩, hc⟩
    cases mtime with
    | none =>
      obtain rfl : children = [] := hrepo rfl
      rw [Entry.encode_repo, consumes_append_iff] at hc
      obtain ⟨r₁, hkind, hc₂⟩ := hc
      refine ⟨0, r₁, hkind, rel, r', ⟨hrel, hc₂⟩, ?_⟩
      rw [if_neg (by simpa using hsafe), if_pos rfl]
      rfl
    | some mtime =>
      rw [Entry.encode_dir] at hc
      obtain ⟨r₁, hkind, hc⟩ := consumes_append_iff.mp hc
      obtain ⟨r₂, hc₂, hc⟩ := consumes_append_iff.mp hc
      obtain ⟨r₃, hc₃, hc₅⟩ := consumes_append_iff.mp hc
      obtain ⟨n, r₄, hn, hmany⟩ := (hchildren _ _ _ _).mpr ⟨⟨hlt, hall, rfl⟩, hc₅⟩
      refine ⟨1, r₁, hkind, rel, r₂, ⟨hrel, hc₂⟩, ?_⟩
      rw [if_neg (by simpa using hsafe), if_neg (by decide), if_pos rfl]
      simp only [Option.bind_eq_some_iff, Prod.exists, Reader.i64_exact .., true_and]
      exact ⟨mtime, r₃, hc₃, n, r₄, hn, children, _, r', hmany, rfl⟩

/-! ## The claimed entries -/

/-- The child indices of an entry, as natural numbers. -/
def Entry.childIndices (entry : Entry) : List ℕ := entry.children.map UInt32.toNat

/-- Every child index of the entries, in the order `decode` meets them. -/
def claimedBy (entries : List Entry) : List ℕ := entries.flatMap Entry.childIndices

/-- No entries claim nothing. -/
@[simp] lemma claimedBy_nil : claimedBy [] = [] := rfl

/-- An entry claims its children before those of the others. -/
@[simp] lemma claimedBy_cons (entry : Entry) (entries : List Entry) :
    claimedBy (entry :: entries) = entry.childIndices ++ claimedBy entries := rfl

/-- The vector `parents` records exactly the claims `claimed`. -/
structure Claims (total : ℕ) (parents : List Bool) (claimed : List ℕ) : Prop where
  /-- One flag for each entry of the file. -/
  length_eq : parents.length = total
  /-- A flag is set when its entry is claimed. -/
  getD_iff : ∀ k < total, parents.getD k false = true ↔ k ∈ claimed

/-- Before the loop nothing is claimed. -/
lemma claims_nil (total : ℕ) : Claims total (List.replicate total false) [] :=
  ⟨List.length_replicate, fun k hk => by simp [hk]⟩

/-- Claiming one entry adds it to the recorded claims. -/
lemma Claims.claim {total : ℕ} {parents : List Bool} {claimed : List ℕ}
    (h : Claims total parents claimed) (child : UInt32) :
    Claims total (claim parents child) (claimed ++ [child.toNat]) := by
  refine ⟨by rw [Scap.claim, List.length_set, h.length_eq], fun k hk => ?_⟩
  rw [Scap.claim, List.getD_eq_getElem?_getD, List.getElem?_set, List.mem_append,
    List.mem_singleton, ← h.getD_iff k hk, List.getD_eq_getElem?_getD]
  by_cases hc : child.toNat = k
  · simp [hc, h.length_eq, hk]
  · simp [hc, Ne.symm hc]

/-- Claiming a list of entries adds all of them. -/
lemma Claims.foldl_claim {total : ℕ} {parents : List Bool} {claimed : List ℕ}
    (h : Claims total parents claimed) (children : List UInt32) :
    Claims total (children.foldl Scap.claim parents)
      (claimed ++ children.map UInt32.toNat) := by
  induction children generalizing parents claimed with
  | nil => simpa using h
  | cons child children ih => simpa using ih (h.claim child)

/-- The child loop accepts exactly the edges that go forward, stay in range and are pairwise
different and not yet claimed. -/
lemma allOk_children_iff {total i : ℕ} {parents : List Bool} {claimed : List ℕ}
    (h : Claims total parents claimed) (children : List UInt32) :
    AllOk (ChildOk total i) claim parents children ↔
      (∀ c ∈ children.map UInt32.toNat, i < c ∧ c < total) ∧
        (children.map UInt32.toNat).Nodup ∧
          List.Disjoint claimed (children.map UInt32.toNat) := by
  induction children generalizing parents claimed with
  | nil => simp [AllOk]
  | cons child children ih =>
    rw [AllOk, ih (h.claim child), ChildOk, List.map_cons, List.forall_mem_cons, List.nodup_cons,
      List.disjoint_cons_right, List.disjoint_append_left, List.singleton_disjoint]
    constructor
    · rintro ⟨⟨hlt, hle, hfree⟩, hrange, hnodup, hdisj, hnew⟩
      refine ⟨⟨⟨hlt, hle⟩, hrange⟩, ⟨hnew, hnodup⟩, fun hmem => ?_, hdisj⟩
      rw [(h.getD_iff _ hle).mpr hmem] at hfree
      cases hfree
    · rintro ⟨⟨⟨hlt, hle⟩, hrange⟩, ⟨hnew, hnodup⟩, hfree, hdisj⟩
      refine ⟨⟨hlt, hle, ?_⟩, hrange, hnodup, hdisj, hnew⟩
      rwa [← Bool.not_eq_true, h.getD_iff _ hle]

/-- What `decode` requires of one entry on its own. -/
structure Entry.Fits (entry : Entry) : Prop where
  /-- The path is one the validation pass may use. -/
  safe : isSafeRel entry.rel = true
  /-- The path's length fits its prefix. -/
  rel_lt : entry.rel.length < 2 ^ 32
  /-- Repository entries have no children. -/
  repo_childless : entry.mtimeNs = none → entry.children = []
  /-- The number of children fits its prefix. -/
  children_lt : entry.children.length < 2 ^ 32

/-- The entry loop, started at index `i`, accepts exactly the lists of entries whose edges go
forward, stay in range and claim pairwise different entries nothing has claimed before. -/
lemma allOk_entries_iff {total i : ℕ} {parents : List Bool} {claimed : List ℕ}
    (h : Claims total parents claimed) (entries : List Entry) :
    AllOk (EntryOk total) nextEntry (i, parents) entries ↔
      (∀ entry ∈ entries, entry.Fits) ∧
        (∀ k (hk : k < entries.length), ∀ c ∈ entries[k].childIndices, i + k < c ∧ c < total) ∧
          (claimedBy entries).Nodup ∧ List.Disjoint claimed (claimedBy entries) := by
  induction entries generalizing i parents claimed with
  | nil => simp [AllOk, claimedBy]
  | cons entry entries ih =>
    rw [AllOk, nextEntry, ih (h.foldl_claim entry.children), EntryOk, allOk_children_iff h,
      List.forall_mem_cons, claimedBy_cons, List.nodup_append', List.disjoint_append_left,
      List.disjoint_append_right, Entry.childIndices]
    constructor
    · rintro ⟨⟨hrel, hsafe, hrepo, hlen, hrange, hnodup, hdisj⟩, hfits, hfwd, hnodup', hdisj',
        hnew⟩
      refine ⟨⟨⟨hsafe, hrel, hrepo, hlen⟩, hfits⟩, ?_, ⟨hnodup, hnodup', hnew⟩, hdisj, hdisj'⟩
      rintro (_ | k) hk c hc
      · exact hrange c hc
      · rw [← Nat.add_assoc, Nat.add_right_comm]
        exact hfwd k (by simpa using hk) c hc
    · rintro ⟨⟨hfit, hfits⟩, hfwd, ⟨hnodup, hnodup', hnew⟩, hdisj, hdisj'⟩
      refine ⟨⟨hfit.rel_lt, hfit.safe, hfit.repo_childless, hfit.children_lt,
        hfwd 0 (by simp), hnodup, hdisj⟩, hfits, ?_, hnodup', hdisj', hnew⟩
      intro k hk c hc
      rw [Nat.add_right_comm, Nat.add_assoc]
      exact hfwd (k + 1) (by simpa using hk) c hc

/-- After the loop the vector records the claims of all entries. -/
lemma claims_after {total i : ℕ} {parents : List Bool} {claimed : List ℕ}
    (h : Claims total parents claimed) (entries : List Entry) :
    Claims total (entries.foldl nextEntry (i, parents)).2 (claimed ++ claimedBy entries) := by
  induction entries generalizing i parents claimed with
  | nil => simpa [claimedBy] using h
  | cons entry entries ih =>
    have := ih (i := i + 1) (h.foldl_claim entry.children)
    rwa [List.append_assoc] at this

/-! ## Well-formed indexes -/

/-- An index the file format can hold: entry 0 has the empty path, every path is safe, the child
lists form a tree with forward edges, and every length and count fits a `u32`. -/
structure Index.WellFormed (index : Index) : Prop where
  /-- Entry 0 is the root, with the empty path. -/
  root_rel : index.entries.head?.map Entry.rel = some []
  /-- Every path passes `is_safe_rel`. -/
  safe : ∀ entry ∈ index.entries, isSafeRel entry.rel = true
  /-- Repository entries have no children. -/
  repo_childless : ∀ entry ∈ index.entries, entry.mtimeNs = none → entry.children = []
  /-- Every child index is greater than its parent's, and in range. -/
  forward : ∀ k (hk : k < index.entries.length), ∀ c ∈ index.entries[k].childIndices,
    k < c ∧ c < index.entries.length
  /-- Every entry but the root is claimed exactly once. -/
  claimed_once : ∀ k, 0 < k → k < index.entries.length → (claimedBy index.entries).count k = 1
  /-- The root path's length fits its prefix. -/
  root_lt : index.root.length < 2 ^ 32
  /-- The number of exclusion patterns fits its prefix. -/
  exclude_lt : index.exclude.length < 2 ^ 32
  /-- Each pattern's length fits its prefix. -/
  pattern_lt : ∀ pattern ∈ index.exclude, pattern.length < 2 ^ 32
  /-- The number of entries fits its prefix. -/
  entries_lt : index.entries.length < 2 ^ 32
  /-- Each path's length fits its prefix. -/
  rel_lt : ∀ entry ∈ index.entries, entry.rel.length < 2 ^ 32
  /-- Each entry's number of children fits its prefix. -/
  children_lt : ∀ entry ∈ index.entries, entry.children.length < 2 ^ 32

/-- Every entry of a well-formed index fits on its own. -/
lemma Index.WellFormed.fits {index : Index} (h : index.WellFormed) :
    ∀ entry ∈ index.entries, entry.Fits := fun entry he =>
  ⟨h.safe entry he, h.rel_lt entry he, h.repo_childless entry he, h.children_lt entry he⟩

/-- A claimed index is a child of some entry, so it is in range and not the root's. -/
lemma Index.WellFormed.claimed_range {index : Index} (h : index.WellFormed) {c : ℕ}
    (hc : c ∈ claimedBy index.entries) : 0 < c ∧ c < index.entries.length := by
  obtain ⟨entry, hmem, hc⟩ := List.mem_flatMap.mp hc
  obtain ⟨k, hk, rfl⟩ := List.getElem_of_mem hmem
  have := h.forward k hk c hc
  omega

/-- No entry of a well-formed index is claimed twice. -/
lemma Index.WellFormed.nodup_claimedBy {index : Index} (h : index.WellFormed) :
    (claimedBy index.entries).Nodup := by
  refine List.nodup_iff_count_le_one.mpr fun c => ?_
  by_cases hc : c ∈ claimedBy index.entries
  · obtain ⟨hpos, hlt⟩ := h.claimed_range hc
    exact (h.claimed_once c hpos hlt).le
  · rw [List.count_eq_zero_of_not_mem hc]
    exact Nat.zero_le 1

/-- The last check of `decode`: every entry but the first is claimed. -/
lemma drop_any_not_iff {total : ℕ} {parents : List Bool} {claimed : List ℕ}
    (h : Claims total parents claimed) :
    (parents.drop 1).any (!·) = false ↔ ∀ k, 0 < k → k < total → k ∈ claimed := by
  rw [List.any_eq_false]
  constructor
  · intro hall k hpos hk
    rw [← h.getD_iff k hk]
    have hlen := h.length_eq
    have hmem : parents.getD k false ∈ parents.drop 1 := by
      rw [List.getD_eq_getElem _ _ (by omega), List.mem_iff_getElem]
      refine ⟨k - 1, by rw [List.length_drop]; omega, ?_⟩
      rw [List.getElem_drop]
      congr 1
      omega
    simpa using hall _ hmem
  · intro hall b hb
    obtain ⟨j, hj, rfl⟩ := List.getElem_of_mem hb
    rw [List.length_drop, h.length_eq] at hj
    have hk : 1 + j < total := by omega
    have := (h.getD_iff _ hk).mpr (hall _ (by omega) hk)
    rw [List.getD_eq_getElem _ _ (by rw [h.length_eq]; exact hk)] at this
    simpa [Nat.add_comm] using this

/-- The loop over the exclusion patterns, which threads no state. -/
lemma readPattern_exact :
    ExactStep (fun (_ : Unit) r => (Reader.bytes r).map fun (p, r) => ((p, ()), r)) pushBytes
      (fun _ pattern => pattern.length < 2 ^ 32) (fun s _ => s) := by
  rintro ⟨⟩ r pattern ⟨⟩ r'
  simp only [Option.map_eq_some_iff, Prod.exists, Reader.bytes_exact .., Prod.mk.injEq, and_true]
  constructor
  · rintro ⟨p, r₁, h, rfl, rfl⟩
    exact h
  · intro h
    exact ⟨pattern, r', h, rfl, rfl⟩

/-- The checks `decode` makes on the entries are those of a well-formed index. -/
lemma wellFormed_iff (index : Index) :
    index.WellFormed ↔
      index.root.length < 2 ^ 32 ∧
      (index.exclude.length < 2 ^ 32 ∧ ∀ pattern ∈ index.exclude, pattern.length < 2 ^ 32) ∧
      (index.entries.length < 2 ^ 32 ∧
        AllOk (EntryOk index.entries.length) nextEntry
          (0, List.replicate index.entries.length false) index.entries) ∧
      (index.entries.head?.all (fun first => !first.rel.isEmpty) ||
        ((index.entries.foldl nextEntry
          (0, List.replicate index.entries.length false)).2.drop 1).any (!·)) = false := by
  have hhead : index.entries.head?.all (fun first => !first.rel.isEmpty) = false ↔
      index.entries.head?.map Entry.rel = some [] := by
    cases index.entries with
    | nil => simp
    | cons entry entries => simp
  have hafter := claims_after (i := 0) (claims_nil index.entries.length) index.entries
  rw [allOk_entries_iff (claims_nil _), Bool.or_eq_false_iff, hhead, drop_any_not_iff hafter,
    List.nil_append]
  constructor
  · intro h
    refine ⟨h.root_lt, ⟨h.exclude_lt, h.pattern_lt⟩, ⟨h.entries_lt, h.fits, ?_,
      h.nodup_claimedBy, List.disjoint_nil_left _⟩, h.root_rel, fun k hpos hk => ?_⟩
    · simpa only [Nat.zero_add] using h.forward
    · exact List.count_pos_iff.mp (by rw [h.claimed_once k hpos hk]; exact Nat.one_pos)
  · rintro ⟨hroot, ⟨hexclude, hpattern⟩, ⟨hentries, hfits, hfwd, hnodup, -⟩, hrel, hclaimed⟩
    exact {
      root_rel := hrel
      safe := fun entry he => (hfits entry he).safe
      repo_childless := fun entry he => (hfits entry he).repo_childless
      forward := by simpa only [Nat.zero_add] using hfwd
      claimed_once := fun k hpos hk => List.count_eq_one_of_mem hnodup (hclaimed k hpos hk)
      root_lt := hroot
      exclude_lt := hexclude
      pattern_lt := hpattern
      entries_lt := hentries
      rel_lt := fun entry he => (hfits entry he).rel_lt
      children_lt := fun entry he => (hfits entry he).children_lt }

/-- **The decoder, completely**: a file decodes to `index` exactly when `index` is well formed and
the file is its encoding. -/
lemma Index.decode_eq_some_iff {bytes : Bytes} {index : Index} :
    Index.decode bytes = some index ↔ index.WellFormed ∧ index.encode = bytes := by
  have hexclude := fun r vs r' => count_many_iff (fun _ => readPattern_exact) (e := 4)
    (fun p => by simp [pushBytes, pushLen]) (fun _ => ()) r vs () r'
  have hentries := fun r vs s' r' => count_many_iff readEntry_exact (e := MIN_ENTRY_BYTES)
    (fun entry => by simp [Entry.encode, pushBytes, pushLen, MIN_ENTRY_BYTES])
    (fun n => (0, List.replicate n false)) r vs s' r'
  simp only [allOk_const_iff, and_true] at hexclude
  rw [wellFormed_iff]
  simp only [Index.decode, Option.bind_eq_bind, Option.bind_eq_some_iff, Prod.exists,
    Option.guard_eq_some', exists_const, Option.some.injEq]
  constructor
  · rintro ⟨magic, r₁, h₁, version, r₂, h₂, ⟨rfl, rfl⟩, root, r₃, h₃, dev, r₄, h₄, ino, r₅, h₅,
      writtenNs, r₆, h₆, n, r₇, hn, exclude, ⟨⟩, r₈, hmany, m, r₉, hm, entries, k, parents, r₁₀,
      hmany', hend, hshape, rfl⟩
    obtain ⟨-, hc₁⟩ := take_eq_some_iff.mp h₁
    obtain ⟨-, hc₂⟩ := (Reader.u32_exact ..).mp h₂
    obtain ⟨hroot, hc₃⟩ := (Reader.bytes_exact ..).mp h₃
    obtain ⟨-, hc₄⟩ := (Reader.u64_exact ..).mp h₄
    obtain ⟨-, hc₅⟩ := (Reader.u64_exact ..).mp h₅
    obtain ⟨-, hc₆⟩ := (Reader.i64_exact ..).mp h₆
    obtain ⟨hexc, hc₈⟩ := (hexclude _ _ _).mp ⟨n, r₇, hn, hmany⟩
    obtain ⟨⟨hlt, hall, hst⟩, hc₁₀⟩ := (hentries _ _ _ _).mp ⟨m, r₉, hm, hmany'⟩
    refine ⟨⟨hroot, hexc, ⟨hlt, hall⟩, ?_⟩, ?_⟩
    · simpa [← hst] using hshape
    · have hall := consumes_append_iff.mpr ⟨_, hc₁, consumes_append_iff.mpr ⟨_, hc₂,
        consumes_append_iff.mpr ⟨_, hc₃, consumes_append_iff.mpr ⟨_, hc₄,
        consumes_append_iff.mpr ⟨_, hc₅, consumes_append_iff.mpr ⟨_, hc₆,
        consumes_append_iff.mpr ⟨_, hc₈, hc₁₀⟩⟩⟩⟩⟩⟩⟩
      have hnil : r₁₀.rest = [] := by
        rwa [rest_eq_nil_iff, hall.1]
      simpa [hnil, Index.encode] using hall.2.symm
  · obtain ⟨root, dev, ino, writtenNs, exclude, entries⟩ := index
    rintro ⟨⟨hroot, hexc, ⟨hlt, hall⟩, hshape⟩, rfl⟩
    obtain ⟨r₁₀, hc, hnil⟩ := exists_consumes (c := Cursor.start (Index.encode _)) (q := [])
      (by rw [rest_start, List.append_nil])
    have hitems := hc.1
    obtain ⟨r₁, hc₁, hc⟩ := consumes_append_iff.mp hc
    obtain ⟨r₂, hc₂, hc⟩ := consumes_append_iff.mp hc
    obtain ⟨r₃, hc₃, hc⟩ := consumes_append_iff.mp hc
    obtain ⟨r₄, hc₄, hc⟩ := consumes_append_iff.mp hc
    obtain ⟨r₅, hc₅, hc⟩ := consumes_append_iff.mp hc
    obtain ⟨r₆, hc₆, hc⟩ := consumes_append_iff.mp hc
    obtain ⟨r₈, hc₈, hc₁₀⟩ := consumes_append_iff.mp hc
    obtain ⟨n, r₇, hn, hmany⟩ := (hexclude _ _ _).mpr ⟨hexc, hc₈⟩
    obtain ⟨m, r₉, hm, hmany'⟩ := (hentries _ _ _ _).mpr ⟨⟨hlt, hall, rfl⟩, hc₁₀⟩
    have hend : r₁₀.pos = (Index.encode ⟨root, dev, ino, writtenNs, exclude, entries⟩).length := by
      rw [rest_eq_nil_iff, hitems] at hnil
      exact hnil
    exact ⟨MAGIC, r₁, take_eq_some_iff.mpr ⟨rfl, hc₁⟩, VERSION, r₂,
      (Reader.u32_exact ..).mpr ⟨trivial, hc₂⟩, ⟨rfl, rfl⟩,
      root, r₃, (Reader.bytes_exact ..).mpr ⟨hroot, hc₃⟩,
      dev, r₄, (Reader.u64_exact ..).mpr ⟨trivial, hc₄⟩,
      ino, r₅, (Reader.u64_exact ..).mpr ⟨trivial, hc₅⟩,
      writtenNs, r₆, (Reader.i64_exact ..).mpr ⟨trivial, hc₆⟩,
      n, r₇, hn, exclude, (), r₈, hmany, m, r₉, hm, entries, _, _, r₁₀, hmany',
      hend, by simpa using hshape, rfl⟩

/-- What is written of a well-formed index is read back. -/
lemma Index.WellFormed.decode_encode {index : Index} (h : index.WellFormed) :
    Index.decode index.encode = some index :=
  Index.decode_eq_some_iff.mpr ⟨h, rfl⟩

/-- The format round-trips in both directions: a well-formed index is read back from its encoding,
and a file that decodes is the encoding of what it decodes to, so no two different files decode to
the same index. -/
theorem index_round_trip :
    (∀ index : Index, index.WellFormed → Index.decode index.encode = some index) ∧
      (∀ (bytes : Bytes) (index : Index), Index.decode bytes = some index →
        index.encode = bytes) ∧
      ∀ (bytes bytes' : Bytes) (index : Index), Index.decode bytes = some index →
        Index.decode bytes' = some index → bytes = bytes' := by
  refine ⟨fun index h => h.decode_encode,
    fun bytes index h => (Index.decode_eq_some_iff.mp h).2, fun bytes bytes' index h h' => ?_⟩
  rw [← (Index.decode_eq_some_iff.mp h).2, ← (Index.decode_eq_some_iff.mp h').2]

/-- An index of a root holding one directory with one repository in it, and a bare repository. -/
def sampleIndex : Index where
  root := ascii ['/', 'r']
  dev := 3
  ino := 2 ^ 64 - 1
  writtenNs := -5
  exclude := [ascii ['x'], []]
  entries := [
    ⟨[], some 7, [1, 3]⟩,
    ⟨ascii ['d'], some (-2), [2]⟩,
    ⟨ascii ['d', '/', 'a'], none, []⟩,
    ⟨ascii ['b', '.', 'g', 'i', 't'], none, []⟩]

/-- The sample index is well-formed. -/
lemma sampleIndex_wellFormed : sampleIndex.WellFormed where
  root_rel := by decide
  safe := by decide
  repo_childless := by decide
  forward := by decide
  claimed_once k hpos hk := by
    have hk : k < 4 := hk
    interval_cases k <;> decide
  root_lt := by decide
  exclude_lt := by decide
  pattern_lt := by decide
  entries_lt := by decide
  rel_lt := by decide
  children_lt := by decide

/-- The sample index is read back. -/
theorem index_round_trip_sample :
    Index.decode sampleIndex.encode = some sampleIndex :=
  index_round_trip.1 sampleIndex sampleIndex_wellFormed

end Scap
