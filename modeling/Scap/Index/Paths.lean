import Scap.Foundations.Split
import Scap.Index.PrefixFree
import Scap.Index.Refinement

/-!
# The paths of a decoded index

Every path a file may hold passes `is_safe_rel`, so it is empty or a path of valid names below the
root (`src/index.rs`, `decode`, `is_safe_rel`, `probe`).  The check looks at one path at a time: it
calls the empty path the root's own, at whatever entry it stands.  `decode_confined_iff` says which
files have the paths the format means.
-/

namespace Scap

open Cursor

/-- A path whose pieces are all valid names is the path of these names. -/
lemma exists_render_of_pieces {rel : Bytes} (hnul : 0 ∉ rel)
    (hparts : ∀ part ∈ rel.splitOn slash, part ≠ [] ∧ part ≠ dot ∧ part ≠ dotDot) :
    ∃ names, names ≠ [] ∧ ValidPath names ∧ rel = render names := by
  induction hn : rel.length using Nat.strong_induction_on generalizing rel with
  | _ n ih =>
    rcases eq_last_or_append slash rel with hslash | ⟨above, name, rfl, hname⟩
    · obtain ⟨hne, hdot, hdotDot⟩ := hparts rel (by simp [List.splitOn_eq_singleton hslash])
      exact ⟨[rel], by simp, validPath_singleton.mpr ⟨hne, hslash, hnul, hdot, hdotDot⟩, rfl⟩
    · -- the last piece is a name, and what is above it a shorter path of the same kind
      rw [List.splitOn_append_cons_self, List.splitOn_eq_singleton hname] at hparts
      simp only [List.mem_append, List.mem_cons, not_or] at hnul
      obtain ⟨names, hnames, hvalid, rfl⟩ := ih above.length (by simp [← hn])
        hnul.1 (fun part hpart => hparts part (by simp [hpart])) rfl
      obtain ⟨hne, hdot, hdotDot⟩ := hparts name (by simp)
      refine ⟨names ++ [name], by simp, validPath_append.mpr
        ⟨hvalid, validPath_singleton.mpr ⟨hne, hname, hnul.2.2, hdot, hdotDot⟩⟩, ?_⟩
      rw [render_append_singleton, joinRel, if_neg]
      simpa [render_eq_nil_iff hvalid] using hnames

/-- The paths `is_safe_rel` lets through: the empty one, and the relative paths of valid names. -/
lemma isSafeRel_iff {rel : Bytes} : isSafeRel rel = true ↔
    rel = [] ∨ ∃ names, names ≠ [] ∧ ValidPath names ∧ rel = render names := by
  constructor
  · intro h
    rcases eq_or_ne rel [] with rfl | hne
    · exact .inl rfl
    · simp only [isSafeRel, List.isEmpty_iff, hne, if_false] at h
      split at h
      · cases h
      · rename_i hbad
        rw [Bool.or_eq_true, not_or] at hbad
        refine .inr (exists_render_of_pieces (by simpa using hbad.2) fun part hpart => ?_)
        have hpart := List.all_eq_true.mp h part hpart
        simp only [Bool.not_eq_true', Bool.or_eq_false_iff, decide_eq_false_iff_not] at hpart
        exact ⟨hpart.1.1, hpart.1.2, hpart.2⟩
  · rintro (rfl | ⟨names, -, hvalid, rfl⟩)
    · rfl
    · exact isSafeRel_render hvalid

/-- The path of a nonempty list of names is relative. -/
lemma head?_render_ne {names : List Bytes} (h : ValidPath names) (hne : names ≠ []) :
    (render names).head? ≠ some slash := by
  have hsafe := isSafeRel_render h
  have hempty : render names ≠ [] := by rwa [Ne, render_eq_nil_iff h]
  intro hhead
  simp [isSafeRel, hempty, hhead] at hsafe

/-! ## The paths the validation pass stats -/

/-- The only path `probe` can ask the kernel about is `path`. -/
def Entry.ProbesOnly (entry : Entry) (path : Bytes) : Prop :=
  ∀ (sys sys' : Sys) (rootName : Bytes), sys.stat .probe path = sys'.stat .probe path →
    sys.lstat path = sys'.lstat path → probe sys rootName entry = probe sys' rootName entry

/-- A repository is probed at its `.git`, a directory at its own path. -/
lemma Entry.probesOnly {entry : Entry} {names : List Bytes} (h : ValidPath names)
    (hne : names ≠ []) (hrel : entry.rel = render names) :
    entry.ProbesOnly (render (names ++ if entry.isRepo then [dotGit] else [])) := by
  intro sys sys' rootName hstat hlstat
  have hempty : entry.rel ≠ [] := by rwa [hrel, Ne, render_eq_nil_iff h]
  cases hrepo : entry.isRepo with
  | true =>
    rw [hrepo, if_pos rfl, render_append_singleton, ← hrel] at hstat
    simp [probe, hrepo, hstat]
  | false =>
    rw [hrepo, if_neg Bool.false_ne_true, List.append_nil, ← hrel] at hlstat
    simp [probe, hrepo, hempty, hlstat]

/-- The paths of the entries are those the format means: the root's own is empty, and every other
entry has a path of one or more valid names, so what is probed for it is a relative path below the
root. -/
structure Index.Confined (index : Index) : Prop where
  /-- Entry 0 has the empty path. -/
  root : index.entries.head?.map Entry.rel = some []
  /-- No other entry has, and each is probed below the root. -/
  below : ∀ {k : ℕ} {entry : Entry}, 0 < k → index.entries[k]? = some entry →
    entry.rel ≠ [] ∧ ∃ names, names ≠ [] ∧ ValidPath names ∧ entry.rel = render names ∧
      entry.rel.head? ≠ some slash ∧
      entry.ProbesOnly (render (names ++ if entry.isRepo then [dotGit] else []))

/-- The file has a record with an empty path after its first record: after a header and at least one
record comes a kind byte and a length prefix of zero. -/
def EmptyPathFollows (bytes : Bytes) : Prop :=
  ∃ (about : Index) (count : ℕ) (earlier : List Entry) (kind : UInt8) (tail : Bytes),
    about.HeaderFits ∧ count < 2 ^ 32 ∧ earlier ≠ [] ∧ (∀ entry ∈ earlier, entry.Fits) ∧
      bytes = about.header count ++
        (earlier.flatMap Entry.encode ++ kind :: (pushLen 0 ++ tail))

/-- A record starts with its kind byte and the length of its path. -/
lemma Entry.encode_eq_cons (entry : Entry) :
    ∃ kind rest, entry.encode = kind :: (pushLen entry.rel.length ++ rest) := by
  simp only [Entry.encode, pushBytes, List.singleton_append]
  exact ⟨_, _, rfl⟩

/-- **The paths of a decoded index are confined exactly when no record after the first has an empty
path.** -/
theorem decode_confined_iff {bytes : Bytes} {index : Index}
    (h : Index.decode bytes = some index) : index.Confined ↔ ¬EmptyPathFollows bytes := by
  obtain ⟨hwf, rfl⟩ := Index.decode_eq_some_iff.mp h
  constructor
  · rintro hconfined ⟨about, count, earlier, kind, tail, hheader, hcount, hearlier, hfits, heq⟩
    rw [Index.encode_eq_header] at heq
    obtain ⟨-, -, hrest⟩ :=
      Index.header_append_inj hwf.headerFits hheader hwf.entries_lt hcount heq
    rcases Nat.le_total earlier.length index.entries.length with hle | hle
    · obtain ⟨us, hentries, hus⟩ := Entry.encode_prefixCode.flatMap_prefix hfits hwf.fits hle
        (hrest.symm.trans (List.append_nil _).symm)
      cases us with
      | nil => simp at hus
      | cons entry us =>
        -- the record that starts at the kind byte is the next entry's
        obtain ⟨kind', rest, hencode⟩ := entry.encode_eq_cons
        have hfit : entry.Fits := hwf.fits entry (by simp [hentries])
        rw [List.flatMap_cons, hencode, List.append_assoc, List.cons_append, List.cons.injEq,
          List.append_assoc] at hus
        obtain ⟨hlen, -⟩ := pushLen_prefixCode _ _ _ _ (by decide) hfit.rel_lt hus.2
        have hget : index.entries[earlier.length]? = some entry := by simp [hentries]
        exact (hconfined.below (List.length_pos_of_ne_nil hearlier) hget).1
          (List.eq_nil_of_length_eq_zero hlen.symm)
    · obtain ⟨us, -, hnil⟩ := Entry.encode_prefixCode.flatMap_prefix hwf.fits hfits hle
        ((List.append_nil _).trans hrest)
      simp at hnil
  · intro hnone
    refine ⟨hwf.root_rel, fun {k entry} hpos hget => ?_⟩
    obtain ⟨hk, rfl⟩ := List.getElem?_eq_some_iff.mp hget
    rcases isSafeRel_iff.mp (hwf.safe _ (List.getElem_mem hk)) with
      hempty | ⟨names, hne, hvalid, hrel⟩
    · refine absurd ?_ hnone
      obtain ⟨kind, rest, hencode⟩ := index.entries[k].encode_eq_cons
      refine ⟨index, index.entries.length, index.entries.take k, kind,
        rest ++ (index.entries.drop (k + 1)).flatMap Entry.encode, hwf.headerFits, hwf.entries_lt,
        ?_, fun entry hentry => hwf.fits entry (List.mem_of_mem_take hentry), ?_⟩
      · exact List.ne_nil_of_length_pos (by rw [List.length_take]; omega)
      · have hsplit : index.entries.flatMap Entry.encode =
            (index.entries.take k).flatMap Entry.encode ++ (index.entries[k].encode ++
              (index.entries.drop (k + 1)).flatMap Entry.encode) := by
          rw [← List.flatMap_cons, ← List.drop_eq_getElem_cons hk, ← List.flatMap_append,
            List.take_append_drop]
        rw [Index.encode_eq_header, hsplit, hencode, hempty]
        simp
    · refine ⟨?_, names, hne, hvalid, hrel, ?_, Entry.probesOnly hvalid hne hrel⟩
      · rwa [hrel, Ne, render_eq_nil_iff hvalid]
      · rw [hrel]
        exact head?_render_ne hvalid hne

/-- The sample index is confined unless an empty path follows in its encoding. -/
theorem decode_confined_iff_sample :
    sampleIndex.Confined ↔ ¬EmptyPathFollows sampleIndex.encode :=
  decode_confined_iff sampleIndex_wellFormed.decode_encode

/-- An index of a root with one repository in it, whose path is the root's. -/
def emptyPathIndex : Index where
  root := ascii ['/', 'r']
  dev := 3
  ino := 4
  writtenNs := 5
  exclude := []
  entries := [⟨[], some 7, [1]⟩, ⟨[], none, []⟩]

/-- Its file is accepted. -/
theorem emptyPathIndex_not_confined :
    Index.decode emptyPathIndex.encode = some emptyPathIndex ∧ ¬emptyPathIndex.Confined := by
  refine ⟨Index.decode_eq_some_iff.mpr ⟨?_, rfl⟩, fun h => ?_⟩
  · exact {
      root_rel := by decide
      safe := by decide
      repo_childless := by decide
      forward := by decide
      claimed_once := fun k hpos hk => by
        have hk : k < 2 := hk
        interval_cases k
        decide
      root_lt := by decide
      exclude_lt := by decide
      pattern_lt := by decide
      entries_lt := by decide
      rel_lt := by decide
      children_lt := by decide }
  · exact (h.below (k := 1) Nat.one_pos rfl).1 rfl

end Scap
