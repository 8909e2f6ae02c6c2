import Mathlib.Data.List.TakeWhile
import Scap.Index.Cache
import Scap.Walk.Rules

/-!
# One validation pass over a tree

An index of the tree `before` is validated against the tree `now` (`Validation`).  `Validation.Held`
is what the pass knows of an entry it visits; it holds from the root down because a believed
directory's entry list is the recorded one.  What the pass believes is there to be found, what it
hands back is a place to start a walk from, and nothing is lost between the two
(`Validation.finds`).
-/

namespace Scap

/-! ## Trees without links -/

namespace Tree

variable {t : Tree} {p : List Bytes}

/-- A directory is an object whose type is that of one. -/
lemma isDir_iff : t.IsDir p ↔ ∃ d, t.root.at? p = some d ∧ d.fileType = .directory := by
  constructor
  · rintro ⟨attr, r, x, entries, hat⟩
    exact ⟨_, hat, rfl⟩
  · rintro ⟨d, hat, hdir⟩
    cases d with
    | dir attr r x entries => exact ⟨attr, r, x, entries, hat⟩
    | file attr fileType plain => exact absurd hdir plain.1
    | link attr resolve => exact absurd hdir (by simp [Node.fileType])

/-- A plain tree has no links to directories. -/
lemma Plain.not_isDirLink (h : t.Plain) : ¬t.IsDirLink p := by
  rintro ⟨⟨attr, resolve, hlink⟩, -⟩
  exact h.noLinks p attr resolve hlink

/-- What a path names is what both stats find there. -/
lemma Plain.find_eq (h : t.Plain) {n : Node} (hat : t.root.at? p = some n) (follow : Bool) :
    t.root.find follow p = .ok n.stat := by
  have hfind := h.accessible.isOpen.find_append follow (Tree.validPath hat) hat []
  rw [List.append_nil] at hfind
  rw [hfind]
  cases n with
  | link attr resolve => exact absurd hat (h.noLinks p attr resolve)
  | _ => rfl

/-- Without links, `.git` stats exactly when the entry list holds it. -/
lemma Plain.hasGit_iff (h : t.Plain) (hdir : t.IsDir p) :
    t.hasGit (render p) = true ↔ (t.entryList p dotGit).isSome := by
  have hvalid := hdir.validPath
  obtain ⟨attr, r, x, entries, hat⟩ := hdir
  have hx : x = true := (h.accessible _ _ _ _ _ hat).2.1
  have hne : dotGit ≠ dot := by decide
  rw [hasGit, components_joinRel validName_dotGit, components_render hvalid, entryList]
  cases hgit : t.root.at? (p ++ [dotGit]) with
  | some n => simp [h.find_eq hgit, succeeds, Except.toBool]
  | none =>
    have hlookup : Node.lookup entries dotGit = none := by
      rw [Node.at?_append, hat, Option.bind_some, Node.at?] at hgit
      simpa using hgit
    rw [h.accessible.isOpen.find_append true hvalid hat, Node.find]
    simp [hx, hne, hlookup, succeeds, Except.toBool]

/-- Whether a directory is a repository is in its name and its entry list. -/
lemma Plain.isRepo_iff (h : t.Plain) (hdir : t.IsDir p) :
    t.IsRepo p ↔ BareName p ∨ (t.entryList p dotGit).isSome := by
  rw [IsRepo, h.hasGit_iff hdir]

/-- In a plain tree only directories are found. -/
lemma Plain.isDir_of_foundAt (h : t.Plain) {wildmatch : Bytes → Bytes → Bool}
    {exclude : List Bytes} {record : Record} (hfound : t.FoundAt wildmatch exclude p record) :
    t.IsDir p := by
  obtain ⟨-, ⟨hkind, -⟩ | ⟨-, attr, r, x, entries, hat, -⟩⟩ := hfound
  · exact hkind.resolve_right h.not_isDirLink
  · exact ⟨attr, r, x, entries, hat⟩

/-- At most one record is found at a path. -/
lemma FoundAt.unique {wildmatch : Bytes → Bytes → Bool} {exclude : List Bytes}
    {record record' : Record} (h : t.FoundAt wildmatch exclude p record)
    (h' : t.FoundAt wildmatch exclude p record') : record = record' := by
  obtain ⟨-, ⟨-, hrepo, rfl⟩ | ⟨hrepo, attr, r, x, entries, hat, rfl⟩⟩ := h <;>
    obtain ⟨-, ⟨-, hrepo', rfl⟩ | ⟨hrepo', attr', r', x', entries', hat', rfl⟩⟩ := h'
  · rfl
  · exact absurd hrepo hrepo'
  · exact absurd hrepo' hrepo
  · obtain ⟨rfl, -⟩ : attr = attr' ∧ _ := by simpa using hat.symm.trans hat'
    rfl

/-- A directory that is reached is there to be found. -/
lemma IsDir.exists_foundAt {wildmatch : Bytes → Bytes → Bool} {exclude : List Bytes}
    (h : t.IsDir p) (hreached : t.Reached wildmatch exclude p) :
    ∃ record, t.FoundAt wildmatch exclude p record := by
  by_cases hrepo : t.IsRepo p
  · exact ⟨_, hreached, .inl ⟨.inl h, hrepo, rfl⟩⟩
  · obtain ⟨attr, r, x, entries, hat⟩ := h
    exact ⟨_, hreached, .inr ⟨hrepo, attr, r, x, entries, hat, rfl⟩⟩

/-- A directory that exists in one entry list exists in an equal one, and is the same object. -/
lemma same_of_entryList {name : Bytes} {u : Tree}
    (hlist : t.entryList p = u.entryList p) (hdir : t.IsDir (p ++ [name])) :
    ∃ d d', t.root.at? (p ++ [name]) = some d ∧ u.root.at? (p ++ [name]) = some d' ∧
      d.identity = d'.identity ∧ d'.fileType = .directory := by
  obtain ⟨d, hat, hdir⟩ := Tree.isDir_iff.mp hdir
  have hentry := congrFun hlist name
  rw [Tree.entryList, hat, Option.map_some] at hentry
  obtain ⟨d', hat', hsame⟩ := Option.map_eq_some_iff.mp hentry.symm
  exact ⟨d, d', hat, hat', hsame.symm, (congrArg (fun x => x.2.2) hsame).trans hdir⟩

end Tree

/-! ## Probing a tree -/

/-- The last component of a joined path. -/
lemma basename_joinRel {rel name : Bytes} (hname : slash ∉ name) :
    basename (joinRel rel name) = name := by
  have hall : ∀ b ∈ name.reverse, (decide (b ≠ slash)) = true := by
    intro b hb
    have : b ≠ slash := by
      rintro rfl
      exact hname (List.mem_reverse.mp hb)
    simpa using this
  rcases eq_or_ne rel [] with rfl | hrel
  · have hjoin : joinRel [] name = name := rfl
    rw [basename, hjoin, List.takeWhile_eq_self_iff.mpr hall, List.reverse_reverse]
  · have hrev : (joinRel rel name).reverse = name.reverse ++ slash :: rel.reverse := by
      simp [joinRel, hrel]
    rw [basename, hrev, List.takeWhile_append_of_pos hall]
    simp

/-- A valid path has no NUL. -/
lemma zero_not_mem_render {p : List Bytes} (h : ValidPath p) : 0 ∉ render p := by
  intro hmem
  rcases mem_render hmem with hslash | ⟨name, hname, hmem⟩
  · exact absurd hslash (by decide)
  · exact (h name hname).noNul hmem

/-- The paths of a walk are safe to stat. -/
lemma isSafeRel_render {p : List Bytes} (h : ValidPath p) : isSafeRel (render p) = true := by
  rcases eq_or_ne p [] with rfl | hne
  · rfl
  · have hempty : render p ≠ [] := by rwa [Ne, render_eq_nil_iff h]
    have hsplit := splitOn_render h hne
    have hhead : (render p).head? ≠ some slash := by
      intro hhead
      obtain ⟨rest, hrest⟩ := List.head?_eq_some_iff.mp hhead
      have hcons : p = [] :: rest.splitOn slash := by
        rw [← hsplit, hrest]
        exact List.splitOn_append_cons_self [] rest
      exact (h [] (by rw [hcons]; simp)).nonempty rfl
    have hparts : ∀ part ∈ p, ¬(part = [] ∨ part = [0x2e] ∨ part = [0x2e, 0x2e]) := by
      rintro part hpart (rfl | rfl | rfl)
      · exact (h _ hpart).nonempty rfl
      · exact (h _ hpart).ne_dot rfl
      · exact (h _ hpart).ne_dotDot rfl
    have hcontains : (render p).contains 0 = false := by
      simpa using zero_not_mem_render h
    simp only [isSafeRel, List.isEmpty_iff, hempty, if_false, hsplit, hhead, hcontains,
      decide_false, Bool.or_self, Bool.false_eq_true, List.all_eq_true]
    intro part hpart
    simpa [not_or, and_assoc] using hparts part hpart

section Probe

variable {t : Tree} {p : List Bytes} {entry : Entry} {rootName : Bytes}

/-- A repository entry validates exactly when its name or its `.git` still makes it one. -/
lemma probe_repo (hvalid : ValidPath p) (hname : ¬dotGit <:+ rootName)
    (hrel : entry.rel = render p) (hrepo : entry.isRepo = true) :
    (t.IsRepo p ∧ probe t.sys rootName entry = .repo) ∨
      (¬t.IsRepo p ∧ probe t.sys rootName entry = .stale) := by
  have hbare : dotGit <:+ (if entry.rel = [] then rootName else basename entry.rel) ↔
      Tree.BareName p := by
    rw [hrel]
    rcases List.eq_nil_or_concat' p with rfl | ⟨q, name, rfl⟩
    · simpa using hname
    · rw [if_neg (by rw [render_eq_nil_iff hvalid]; simp), render_append_singleton,
        basename_joinRel (hvalid name (by simp)).noSlash, Tree.bareName_append_singleton]
  have hnul : (joinRel entry.rel dotGit).contains 0 = false := by
    have hgit : ValidPath (p ++ [dotGit]) :=
      validPath_append.mpr ⟨hvalid, validPath_singleton.mpr validName_dotGit⟩
    simpa [hrel] using zero_not_mem_render hgit
  have hgit : succeeds (t.sys.stat .probe (joinRel entry.rel dotGit)) = t.hasGit (render p) := by
    rw [hrel]
    rfl
  simp only [probe, hrepo, hnul, hgit, Bool.false_eq_true, if_true, if_false, Tree.IsRepo]
  by_cases hb : Tree.BareName p
  · exact .inl ⟨.inl hb, if_pos (hbare.mpr hb)⟩
  · rw [if_neg (mt hbare.mp hb)]
    cases t.hasGit (render p) <;> simp [hb]

/-- A directory entry at a directory is probed for its mtime. -/
lemma probe_dir (h : t.Plain) {d : Node} (hat : t.root.at? p = some d)
    (hdir : d.fileType = .directory) (hrel : entry.rel = render p) (hrepo : entry.isRepo = false) :
    probe t.sys rootName entry = .dir (mtimeNs d.stat) := by
  have hvalid := Tree.validPath hat
  have hlstat : t.sys.lstat (if entry.rel = [] then dot else entry.rel) = .ok d.stat := by
    rw [hrel]
    rcases eq_or_ne p [] with rfl | hne
    · -- The root is statted as `.`, which needs the right to search it.
      obtain rfl : t.root = d := by simpa using hat
      cases hroot : t.root with
      | dir attr r x entries =>
        have hx : x = true := (h.accessible [] attr r x entries (by simp [hroot])).2.1
        have hcomponents : components dot = [dot] := by decide
        simp [Tree.sys, hcomponents, hroot, Node.find, hx]
      | file attr fileType plain =>
        rw [hroot] at hdir
        exact absurd hdir plain.1
      | link attr resolve => exact absurd hroot (t.resolved attr resolve)
    · rw [if_neg (by rwa [render_eq_nil_iff hvalid])]
      simp only [Tree.sys, components_render hvalid]
      exact h.find_eq hat false
  have hnul : (if entry.rel = [] then dot else entry.rel).contains 0 = false := by
    split
    · decide
    · simpa [hrel] using zero_not_mem_render hvalid
  have hstat : d.stat.fileType = .directory := hdir
  rw [probe, hrepo]
  simp only [Bool.false_eq_true, if_false, hlstat, hnul, hstat, if_true]

end Probe

/-! ## Validating one tree's index against another tree -/

/-- The index of a complete listing of `before` is validated against `now`, whose root is the same
directory, not named `*.git`. -/
structure Validation (wildmatch : Bytes → Bytes → Bool) (index : Index) (before now : Tree)
    (rootName : Bytes) : Prop where
  before_plain : before.Plain
  now_plain : now.Plain
  now_isDir : now.IsDir []
  root_same : before.root.identity = now.root.identity
  rootName_plain : ¬dotGit <:+ rootName
  wellFormed : index.WellFormed
  represents : Represents index.entries (index.entries.map Entry.toRecord)
  found : ∀ record, record ∈ index.entries.map Entry.toRecord ↔
    ∃ p, before.FoundAt wildmatch index.exclude p record
  evidence : Evidence before index now

namespace Validation

/-- What validation probes. -/
def probes (index : Index) (now : Tree) (rootName : Bytes) : List Probe :=
  index.entries.map (probe now.sys rootName)

variable {wildmatch : Bytes → Bytes → Bool} {index : Index} {before now : Tree} {rootName : Bytes}

/-- What the pass knows of an entry `i` it visits, recorded at `p`: the directory is still there, is
still reached, and every directory above it was believed. -/
structure Held (wildmatch : Bytes → Bytes → Bool) (index : Index) (before now : Tree)
    (rootName : Bytes) (i : ℕ) (entry : Entry) (p : List Bytes) : Prop where
  entry_eq : index.entries[i]? = some entry
  found : before.FoundAt wildmatch index.exclude p entry.toRecord
  same : ∃ d d', before.root.at? p = some d ∧ now.root.at? p = some d' ∧ d.identity = d'.identity ∧
    d'.fileType = .directory
  reached : now.Reached wildmatch index.exclude p
  above : ∀ q, q <+: p → q ≠ p → ∀ (j : ℕ) (parent : Entry), index.entries[j]? = some parent →
    parent.rel = render q → (concludes index (probes index now rootName) j).stale = []

/-- An entry that is held has the path it is held at. -/
lemma Held.rel_eq {i : ℕ} {entry : Entry} {p : List Bytes}
    (h : Held wildmatch index before now rootName i entry p) : entry.rel = render p :=
    h.found.rel_eq

/-- An entry that is held is a directory still. -/
lemma Held.isDir {i : ℕ} {entry : Entry} {p : List Bytes}
    (h : Held wildmatch index before now rootName i entry p) : now.IsDir p := by
  obtain ⟨d, d', -, hat, -, hdir⟩ := h.same
  exact Tree.isDir_iff.mpr ⟨d', hat, hdir⟩

/-- What lies below a path that goes back to the walker is not visited. -/
lemma eq_of_stale_prefix {i j : ℕ} {a b : Entry} {s p : List Bytes}
    (hs : Held wildmatch index before now rootName i a s)
    (hstale : (concludes index (probes index now rootName) i).stale = [render s])
    (hp : Held wildmatch index before now rootName j b p) (hbelow : s <+: p) : s = p := by
  by_contra hne
  have hnil := hp.above s hbelow hne i a hs.entry_eq hs.rel_eq
  simp [hstale] at hnil

variable (v : Validation wildmatch index before now rootName)

include v

/-- Each entry is recorded at a path. -/
lemma exists_path {i : ℕ} {entry : Entry} (h : index.entries[i]? = some entry) :
    ∃ p, before.FoundAt wildmatch index.exclude p entry.toRecord :=
  (v.found _).mp (List.mem_map_of_mem (List.mem_of_getElem? h))

/-- What was there to be found has an entry. -/
lemma exists_entry {p : List Bytes} {record : Record}
    (h : before.FoundAt wildmatch index.exclude p record) :
    ∃ (i : ℕ) (entry : Entry), index.entries[i]? = some entry ∧ entry.toRecord = record := by
  obtain ⟨entry, hentry, rfl⟩ := List.mem_map.mp ((v.found _).mpr ⟨p, h⟩)
  obtain ⟨i, hi⟩ := List.mem_iff_getElem?.mp hentry
  exact ⟨i, entry, hi, rfl⟩

/-- What becomes of an entry the pass visits.  A repository is still one; a believed directory still
has the recorded entry list, is there to be found and hands its children on; and a path that goes
back to the walker is a path to start a walk from. -/
lemma cases {i : ℕ} {entry : Entry} {p : List Bytes}
    (h : Held wildmatch index before now rootName i entry p) :
    let c := concludes index (probes index now rootName) i
    let pushed := pushedBy index (probes index now rootName) i
    (∃ record, now.FoundAt wildmatch index.exclude p record ∧ c.fresh = [record] ∧ c.stale = [] ∧
      (now.IsRepo p ∧ pushed = [] ∨ before.entryList p = now.entryList p ∧ ¬before.IsRepo p ∧
        ¬now.IsRepo p ∧ pushed = entry.childIndices.reverse)) ∨
    (Tree.Start wildmatch index.exclude now p ∧ c.fresh = [] ∧ c.stale = [render p] ∧
      pushed = []) := by
  intro c pushed
  obtain ⟨d, d', hat, hat', hsame, hdir⟩ := h.same
  have hprobe : (probes index now rootName)[i]? = some (probe now.sys rootName entry) := by
    rw [probes, List.getElem?_map, h.entry_eq, Option.map_some]
  have hvisit := visitIndex_eq h.entry_eq hprobe
  have hc : c = (visitEntry index.writtenNs entry (probe now.sys rootName entry)).1 := by
    simp [c, concludes, hvisit]
  have hpushed : pushed = (visitEntry index.writtenNs entry
      (probe now.sys rootName entry)).2.reverse := by
    simp [pushed, pushedBy, hvisit]
  rw [hc, hpushed]
  have hrecord : entry.isRepo = true ↔ entry.toRecord = .repo (render p) := by
    rw [← h.rel_eq, Entry.isRepo, Option.isNone_iff_eq_none, Entry.toRecord, Record.repo,
      Record.mk.injEq]
    simp
  rcases h.found with ⟨-, ⟨-, -, hrepo⟩ | ⟨hnotRepo, attr, r, x, entries, hbefore, hrepo⟩⟩
  · -- A repository was recorded.
    rcases probe_repo h.isDir.validPath v.rootName_plain h.rel_eq (hrecord.mpr hrepo) with
      ⟨hnow, hprobe⟩ | ⟨hnow, hprobe⟩
    · refine .inl ⟨_, ⟨h.reached, .inl ⟨.inl h.isDir, hnow, rfl⟩⟩, ?_⟩
      simp [visitEntry, hprobe, h.rel_eq, hnow]
    · refine .inr ⟨⟨h.isDir, h.reached, fun hbare => hnow (.inl hbare)⟩, ?_⟩
      simp [visitEntry, hprobe, h.rel_eq]
  · -- A directory was recorded, which was no repository.
    have hisRepo : entry.isRepo = false := by
      rw [Bool.eq_false_iff, Ne, hrecord, hrepo]
      simp [Record.dir, Record.repo]
    have hmtime : entry.mtimeNs = some (mtimeNs ⟨attr, .directory⟩) := congrArg Record.mtimeNs hrepo
    have hprobe : probe now.sys rootName entry = .dir (mtimeNs d'.stat) :=
      probe_dir v.now_plain hat' hdir h.rel_eq hisRepo
    have hplain : ¬Tree.BareName p := fun hbare => hnotRepo (.inl hbare)
    rcases visitEntry_cases index.writtenNs entry (probe now.sys rootName entry) with
      ⟨hrepo', -⟩ | ⟨mtime, hshown, hrecorded, hracy, hvisit⟩ | ⟨-, -, racy, hvisit⟩
    · exact absurd (hprobe.symm.trans hrepo') (by simp)
    · obtain rfl : mtimeNs d'.stat = mtime := by simpa using hprobe.symm.trans hshown
      have hlist : before.entryList p = now.entryList p :=
        v.evidence p d d' hat hat' hsame hdir entry (List.mem_of_getElem? h.entry_eq) h.rel_eq
          hrecorded hracy
      have hbeforeDir : before.IsDir p := ⟨attr, r, x, entries, hbefore⟩
      have hnow : ¬now.IsRepo p := by
        rwa [v.now_plain.isRepo_iff h.isDir, ← hlist, ← v.before_plain.isRepo_iff hbeforeDir]
      obtain ⟨attr', r', x', entries', hnowDir⟩ := h.isDir
      obtain rfl := Option.some.inj (hat'.symm.trans hnowDir)
      refine .inl ⟨.dir (render p) (mtimeNs ⟨attr', .directory⟩),
        ⟨h.reached, .inr ⟨hnow, _, _, _, _, hnowDir, rfl⟩⟩, ?_⟩
      rw [hvisit]
      exact ⟨by rw [h.rel_eq]; rfl, rfl, .inr ⟨hlist, hnotRepo, hnow, rfl⟩⟩
    · refine .inr ⟨⟨h.isDir, h.reached, hplain⟩, ?_⟩
      simp [hvisit, h.rel_eq]

/-- The pass knows as much of the root. -/
lemma held_root : ∃ entry, Held wildmatch index before now rootName 0 entry [] := by
  obtain ⟨entry, hentry, hrel⟩ := Option.map_eq_some_iff.mp v.represents.root_rel
  rw [List.head?_eq_getElem?] at hentry
  obtain ⟨p, hp⟩ := v.exists_path hentry
  obtain rfl : p = [] := by
    rw [← render_eq_nil_iff hp.validPath, ← hp.rel_eq]
    exact hrel
  obtain ⟨d, hd, hdir⟩ := Tree.isDir_iff.mp v.now_isDir
  obtain rfl : now.root = d := by simpa using hd
  exact ⟨entry, hentry, hp, ⟨before.root, now.root, by simp, by simp, v.root_same, hdir⟩,
    Tree.reached_nil, fun q hq hne => absurd (List.prefix_nil.mp hq) hne⟩

/-- Two entries at one path are one entry. -/
lemma index_unique {i j : ℕ} {a b : Entry} (ha : index.entries[i]? = some a)
    (hb : index.entries[j]? = some b) {p : List Bytes} (hap : a.rel = render p)
    (hbp : b.rel = render p) : i = j :=
  v.represents.index_unique ha hb (hap.trans hbp.symm)

/-- A recorded directory's children are its children among the recorded ones. -/
lemma mem_childIndices_iff {i k : ℕ} {entry child : Entry} {p q : List Bytes}
    (hi : index.entries[i]? = some entry) (hk : index.entries[k]? = some child)
    (hp : before.FoundAt wildmatch index.exclude p entry.toRecord)
    (hq : before.FoundAt wildmatch index.exclude q child.toRecord) :
    k ∈ entry.childIndices ↔ ∃ name, q = p ++ [name] := by
  have hrel : entry.rel = render p := hp.rel_eq
  have hchild : child.rel = render q := hq.rel_eq
  rw [v.represents.child_iff hi hk, hrel, hchild]
  rcases List.eq_nil_or_concat' q with rfl | ⟨q, name, rfl⟩
  · constructor
    · rintro ⟨hpos, -⟩
      exact absurd hchild (v.represents.rel_ne_nil hpos hk)
    · rintro ⟨name, hname⟩
      simp at hname
  · obtain ⟨hvalid, hname⟩ := validPath_append.mp hq.validPath
    rw [validPath_singleton] at hname
    rw [render_append_singleton, parentOf_joinRel hname.noSlash]
    constructor
    · rintro ⟨-, heq⟩
      obtain rfl := render_injective hvalid hp.validPath heq
      exact ⟨name, rfl⟩
    · rintro ⟨name', heq⟩
      obtain ⟨rfl, -⟩ := List.append_inj' heq rfl
      refine ⟨Nat.pos_of_ne_zero ?_, rfl⟩
      rintro rfl
      have hroot := v.represents.root_rel
      rw [List.head?_eq_getElem?, hk, Option.map_some, Option.some.injEq, hchild,
        render_eq_nil_iff hq.validPath] at hroot
      simp at hroot

/-- What the pass pushes, it knows as much of as of the entry it came from. -/
lemma held_of_mem_pushedBy {i k : ℕ} {entry : Entry} {p : List Bytes}
    (h : Held wildmatch index before now rootName i entry p)
    (hk : k ∈ pushedBy index (probes index now rootName) i) :
    ∃ child q, Held wildmatch index before now rootName k child q := by
  rcases v.cases h with ⟨record, -, -, hstale, ⟨-, hnil⟩ | ⟨hlist, -, hrepo, hchildren⟩⟩ |
    ⟨-, -, -, hnil⟩
  · simp [hnil] at hk
  · rw [hchildren, List.mem_reverse] at hk
    have hklt := v.represents.child_lt entry (List.mem_of_getElem? h.entry_eq) k hk
    have hchild := List.getElem?_eq_getElem hklt
    obtain ⟨q, hq⟩ := v.exists_path hchild
    obtain ⟨name, rfl⟩ := (v.mem_childIndices_iff h.entry_eq hchild h.found hq).mp hk
    have hkept := hq.1.kept _ (List.prefix_refl _) (by simp)
    refine ⟨_, p ++ [name], hchild, hq,
      Tree.same_of_entryList hlist (v.before_plain.isDir_of_foundAt hq),
      Tree.reached_append_singleton.mpr ⟨h.reached, h.isDir, hrepo, hkept⟩, ?_⟩
    intro q hq hne j parent hj hrel
    rcases List.prefix_concat_iff.mp hq with rfl | hq
    · exact absurd rfl hne
    · rcases eq_or_ne q p with rfl | hne'
      · rwa [v.index_unique hj h.entry_eq hrel h.rel_eq]
      · exact h.above q hq hne' j parent hj hrel
  · simp [hnil] at hk

/-- The pass visits an entry. -/
def Visited (index : Index) (now : Tree) (rootName : Bytes) (i : ℕ) : Prop :=
  Relation.ReflTransGen (fun a b => b ∈ pushedBy index (probes index now rootName) a) 0 i

/-- What the pass knows of every entry it visits. -/
lemma held_of_visited {i : ℕ} (h : Visited index now rootName i) :
    ∃ entry p, Held wildmatch index before now rootName i entry p := by
  induction h with
  | refl => exact v.held_root.imp fun entry hentry => ⟨[], hentry⟩
  | tail _ hpush ih =>
    obtain ⟨entry, p, hp⟩ := ih
    exact v.held_of_mem_pushedBy hp hpush

/-- A directory that is reached now is visited, or lies below a path that goes back to the
walker. -/
lemma visited_or_stale {p : List Bytes} (hdir : now.IsDir p)
    (hreached : now.Reached wildmatch index.exclude p) :
    ∃ i entry q, Visited index now rootName i ∧ Held wildmatch index before now rootName i entry q ∧
      (q = p ∨ q <+: p ∧ (concludes index (probes index now rootName) i).stale = [render q]) := by
  induction p using List.reverseRecOn with
  | nil =>
    obtain ⟨entry, hentry⟩ := v.held_root
    exact ⟨0, entry, [], .refl, hentry, .inl rfl⟩
  | append_singleton p name ih =>
    obtain ⟨hparent, hparentDir, hrepo, hkept⟩ := Tree.reached_append_singleton.mp hreached
    obtain ⟨i, entry, q, hi, hheld, rfl | ⟨hbelow, hstale⟩⟩ := ih hparentDir hparent
    · rcases v.cases hheld with ⟨record, -, -, -,
          ⟨hnowRepo, -⟩ | ⟨hlist, hbeforeRepo, -, hpushed⟩⟩ |
        ⟨-, -, hstale, -⟩
      · exact absurd hnowRepo hrepo
      · -- The parent was believed, so the directory was there before and has an entry.
        obtain ⟨d, d', -, hat, -, hd⟩ := Tree.same_of_entryList hlist.symm hdir
        have hbeforeDir : before.IsDir (q ++ [name]) := Tree.isDir_iff.mpr ⟨d', hat, hd⟩
        have hbeforeReached : before.Reached wildmatch index.exclude (q ++ [name]) :=
          Tree.reached_append_singleton.mpr ⟨hheld.found.1,
            v.before_plain.isDir_of_foundAt hheld.found, hbeforeRepo, hkept⟩
        obtain ⟨record, hrecord⟩ := hbeforeDir.exists_foundAt hbeforeReached
        obtain ⟨k, child, hk, rfl⟩ := v.exists_entry hrecord
        have hpush : k ∈ pushedBy index (probes index now rootName) i := by
          rw [hpushed, List.mem_reverse]
          exact (v.mem_childIndices_iff hheld.entry_eq hk hheld.found hrecord).mpr ⟨name, rfl⟩
        obtain ⟨child', q', hchild⟩ := v.held_of_mem_pushedBy hheld hpush
        obtain rfl : child = child' := Option.some.inj (hk.symm.trans hchild.entry_eq)
        have hpath : q' = q ++ [name] := render_injective hchild.found.validPath hrecord.validPath
          (hchild.rel_eq.symm.trans hrecord.rel_eq)
        exact ⟨k, child, q', hi.tail hpush, hchild, .inl hpath⟩
      · exact ⟨i, entry, q, hi, hheld, .inr ⟨List.prefix_append .., hstale⟩⟩
    · exact ⟨i, entry, q, hi, hheld, .inr ⟨hbelow.trans (List.prefix_append ..), hstale⟩⟩

/-- What a visited entry adds to the fresh records is there to be found. -/
lemma held_of_mem_fresh {i : ℕ} (h : Visited index now rootName i) {record : Record}
    (hrecord : record ∈ (concludes index (probes index now rootName) i).fresh) :
    ∃ entry p, Held wildmatch index before now rootName i entry p ∧
      now.FoundAt wildmatch index.exclude p record ∧
      (concludes index (probes index now rootName) i).stale = [] := by
  obtain ⟨entry, p, hp⟩ := v.held_of_visited h
  refine ⟨entry, p, hp, ?_⟩
  rcases v.cases hp with ⟨record', hfound, hfresh, hstale, -⟩ | ⟨-, hfresh, -, -⟩
  · rw [hfresh, List.mem_singleton] at hrecord
    exact ⟨hrecord ▸ hfound, hstale⟩
  · simp [hfresh] at hrecord

/-- A path that goes back to the walker is one to start a walk from. -/
lemma held_of_mem_stale {i : ℕ} (h : Visited index now rootName i) {rel : Bytes}
    (hrel : rel ∈ (concludes index (probes index now rootName) i).stale) :
    ∃ entry s, Held wildmatch index before now rootName i entry s ∧
      Tree.Start wildmatch index.exclude now s ∧ rel = render s ∧
      (concludes index (probes index now rootName) i).stale = [render s] := by
  obtain ⟨entry, s, hs⟩ := v.held_of_visited h
  refine ⟨entry, s, hs, ?_⟩
  rcases v.cases hs with ⟨-, -, -, hstale, -⟩ | ⟨hstart, -, hstale, -⟩
  · simp [hstale] at hrel
  · rw [hstale, List.mem_singleton] at hrel
    exact ⟨hstart, hrel, hstale⟩

/-- The pass adds up what it concludes about the entries it visits. -/
lemma mem_outcome {outcome : Outcome}
    (h : walkIndex index (probes index now rootName) = some outcome) :
    (∀ record, record ∈ outcome.fresh ↔ ∃ i, Visited index now rootName i ∧
      record ∈ (concludes index (probes index now rootName) i).fresh) ∧
    (∀ rel, rel ∈ outcome.stale ↔ ∃ i, Visited index now rootName i ∧
      rel ∈ (concludes index (probes index now rootName) i).stale) ∧
    (outcome.fresh.map Record.rel).Nodup ∧ outcome.stale.Nodup := by
  obtain ⟨visited, hunfolds, hnodup, -, heq⟩ := walkIndex_eq v.wellFormed.linked
    (probes index now rootName) (by simp [probes])
  obtain rfl := Option.some.inj (heq.symm.trans h)
  have hvisited : ∀ i, i ∈ visited ↔ Visited index now rootName i := fun i => by
    simp [hunfolds.mem_iff, Visited]
  rw [foldr_merge_stale, foldr_merge_fresh, List.flatMap_map, List.flatMap_map, List.map_flatMap]
  refine ⟨by simp [hvisited], by simp [hvisited], ?_, ?_⟩
  · refine List.nodup_flatMap.mpr ⟨fun i hi => ?_, ?_⟩
    · obtain ⟨entry, p, hp⟩ := v.held_of_visited ((hvisited i).mp hi)
      rcases v.cases hp with ⟨record, -, hfresh, -⟩ | ⟨-, hfresh, -⟩ <;> simp [hfresh]
    · refine hnodup.pairwise_of_forall_ne fun i hi j hj hne rel hreli hrelj => hne ?_
      obtain ⟨record, hrecordi, rfl⟩ := List.mem_map.mp hreli
      obtain ⟨record', hrecordj, hsame⟩ := List.mem_map.mp hrelj
      obtain ⟨a, p, hp, hfound, -⟩ := v.held_of_mem_fresh ((hvisited i).mp hi) hrecordi
      obtain ⟨b, q, hq, hfound', -⟩ := v.held_of_mem_fresh ((hvisited j).mp hj) hrecordj
      refine v.index_unique hp.entry_eq hq.entry_eq hp.rel_eq ?_
      rw [hq.rel_eq, ← hfound'.rel_eq, hsame, hfound.rel_eq]
  · refine List.nodup_flatMap.mpr ⟨fun i hi => ?_, ?_⟩
    · obtain ⟨entry, p, hp⟩ := v.held_of_visited ((hvisited i).mp hi)
      rcases v.cases hp with ⟨-, -, -, hstale, -⟩ | ⟨-, -, hstale, -⟩ <;> simp [hstale]
    · refine hnodup.pairwise_of_forall_ne fun i hi j hj hne rel hreli hrelj => hne ?_
      obtain ⟨a, p, hp, -, hap, -⟩ := v.held_of_mem_stale ((hvisited i).mp hi) hreli
      obtain ⟨b, q, hq, -, hbq, -⟩ := v.held_of_mem_stale ((hvisited j).mp hj) hrelj
      exact v.index_unique hp.entry_eq hq.entry_eq hp.rel_eq (hq.rel_eq.trans (hbq.symm.trans hap))

/-- The paths the pass hands back are starting points of which none lies below another. -/
lemma exists_starts {outcome : Outcome}
    (h : walkIndex index (probes index now rootName) = some outcome) :
    ∃ starts : List (List Bytes), outcome.stale = starts.map render ∧ starts.Nodup ∧
      (∀ s ∈ starts, Tree.Start wildmatch index.exclude now s) ∧
      (∀ s, s ∈ starts ↔ ∃ i entry, Visited index now rootName i ∧
        Held wildmatch index before now rootName i entry s ∧
        (concludes index (probes index now rootName) i).stale = [render s]) ∧
      ∀ s ∈ starts, ∀ s' ∈ starts, s <+: s' → s = s' := by
  obtain ⟨-, hstale, -, hnodup⟩ := v.mem_outcome h
  have hpath : ∀ rel ∈ outcome.stale, ∃ i entry s, Visited index now rootName i ∧
      Held wildmatch index before now rootName i entry s ∧
      Tree.Start wildmatch index.exclude now s ∧ rel = render s ∧
      (concludes index (probes index now rootName) i).stale = [render s] := by
    intro rel hrel
    obtain ⟨i, hi, hmem⟩ := (hstale rel).mp hrel
    obtain ⟨entry, s, hs⟩ := v.held_of_mem_stale hi hmem
    exact ⟨i, entry, s, hi, hs⟩
  have hrender : (outcome.stale.map components).map render = outcome.stale := by
    rw [List.map_map]
    refine (List.map_congr_left fun rel hrel => ?_).trans (List.map_id _)
    obtain ⟨i, entry, s, -, -, hstart, rfl, -⟩ := hpath rel hrel
    exact congrArg render (components_render hstart.dir.validPath)
  have hmem : ∀ s, s ∈ outcome.stale.map components ↔ ∃ i entry, Visited index now rootName i ∧
      Held wildmatch index before now rootName i entry s ∧
      (concludes index (probes index now rootName) i).stale = [render s] := by
    intro s
    constructor
    · intro hs
      obtain ⟨rel, hrel, rfl⟩ := List.mem_map.mp hs
      obtain ⟨i, entry, s, hi, hheld, hstart, rfl, hsingle⟩ := hpath rel hrel
      rw [components_render hstart.dir.validPath]
      exact ⟨i, entry, hi, hheld, hsingle⟩
    · rintro ⟨i, entry, hi, hheld, hsingle⟩
      exact List.mem_map.mpr ⟨render s, (hstale _).mpr ⟨i, hi, by simp [hsingle]⟩,
        components_render hheld.isDir.validPath⟩
  refine ⟨_, hrender.symm, .of_map render (by rwa [hrender]), fun s hs => ?_, hmem,
    fun s hs s' hs' hbelow => ?_⟩
  · obtain ⟨rel, hrel, rfl⟩ := List.mem_map.mp hs
    obtain ⟨i, entry, s, -, -, hstart, rfl, -⟩ := hpath rel hrel
    rwa [components_render hstart.dir.validPath]
  · obtain ⟨i, a, -, ha, hsingle⟩ := (hmem s).mp hs
    obtain ⟨j, b, -, hb, -⟩ := (hmem s').mp hs'
    exact eq_of_stale_prefix ha hsingle hb hbelow

/-- **One pass.**  The records the pass believes and the records of the walks it asks for are
together what there is to be found, each once. -/
theorem finds {opts : WalkOptions} (hexclude : opts.exclude = index.exclude)
    (hrecord : opts.record = true) {root : Bytes} (hnul : 0 ∉ root) {outcome : Outcome}
    (houtcome : walkIndex index (probes index now rootName) = some outcome)
    {result : Except WalkError RootListing}
    (hwalk : WalkSubtrees wildmatch now.host root outcome.stale opts result) :
    ∃ rewalked, result = .ok rewalked ∧ rewalked.incomplete = false ∧
      ((outcome.fresh ++ rewalked.records).map Record.rel).Nodup ∧
      ∀ record, record ∈ outcome.fresh ++ rewalked.records ↔
        ∃ p, now.FoundAt wildmatch index.exclude p record := by
  obtain ⟨hfresh, -, hfreshNodup, -⟩ := v.mem_outcome houtcome
  obtain ⟨starts, hstale, hstartsNodup, hstart, hmemStarts, hapart⟩ := v.exists_starts houtcome
  rw [← hexclude] at hstart
  obtain ⟨attr, r, x, entries, hroot⟩ := v.now_isDir
  obtain ⟨rewalked, walked, rfl, hwalked, hequiv⟩ :=
    hwalk.tree wildmatch v.now_plain.accessible (by simpa using hroot) hnul
  have hperm := hequiv.finds.records hrecord
  rw [hstale] at hwalked
  have hrewalked : ∀ record, record ∈ rewalked.records ↔ ∃ s ∈ starts, ∃ p, s <+: p ∧
      now.FoundAt wildmatch index.exclude p record := fun record => by
    rw [hperm.mem_iff, Tree.mem_found_iff hstart hwalked, hexclude]
  refine ⟨rewalked, rfl, hequiv.finds.complete, ?_, fun record => ?_⟩
  · rw [List.map_append, List.nodup_append']
    refine ⟨hfreshNodup, (hperm.map _).nodup_iff.mpr
      (Tree.nodup_found hstart hstartsNodup hapart hwalked), fun rel hrelFresh hrelWalked => ?_⟩
    -- A path found by both would lie below a starting point, or be one.
    obtain ⟨record, hmem, rfl⟩ := List.mem_map.mp hrelFresh
    obtain ⟨record', hmem', hsame⟩ := List.mem_map.mp hrelWalked
    obtain ⟨i, hi, hmem⟩ := (hfresh record).mp hmem
    obtain ⟨entry, p, hp, hfound, hnil⟩ := v.held_of_mem_fresh hi hmem
    obtain ⟨s, hs, q, hbelow, hfound'⟩ := (hrewalked record').mp hmem'
    obtain rfl : q = p := render_injective hfound'.validPath hfound.validPath
      (hfound'.rel_eq.symm.trans (hsame.trans hfound.rel_eq))
    obtain ⟨j, b, -, hb, hsingle⟩ := (hmemStarts s).mp hs
    obtain rfl := eq_of_stale_prefix hb hsingle hp hbelow
    obtain rfl := v.index_unique hb.entry_eq hp.entry_eq hb.rel_eq hp.rel_eq
    simp [hnil] at hsingle
  · rw [List.mem_append, hfresh, hrewalked]
    constructor
    · rintro (⟨i, hi, hmem⟩ | ⟨s, -, p, -, hfound⟩)
      · obtain ⟨entry, p, -, hfound, -⟩ := v.held_of_mem_fresh hi hmem
        exact ⟨p, hfound⟩
      · exact ⟨p, hfound⟩
    · rintro ⟨p, hfound⟩
      obtain ⟨i, entry, q, hi, hq, rfl | ⟨hbelow, hsingle⟩⟩ := v.visited_or_stale
        (v.now_plain.isDir_of_foundAt hfound) hfound.1
      · rcases v.cases hq with ⟨record', hfound', hsingle, -⟩ | ⟨-, -, hsingle, -⟩
        · exact .inl ⟨i, hi, by simp [hsingle, hfound.unique hfound']⟩
        · exact .inr ⟨q, (hmemStarts q).mpr ⟨i, entry, hi, hq, hsingle⟩, q, List.prefix_refl _,
            hfound⟩
      · exact .inr ⟨q, (hmemStarts q).mpr ⟨i, entry, hi, hq, hsingle⟩, p, hbelow, hfound⟩

end Validation

end Scap
