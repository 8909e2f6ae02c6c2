import Scap.Commands.Disk
import Scap.Index.Check
import Scap.Walk.Findings

/-!
# What a change does to a listing

The repositories a walk of a root lists, as a set of paths (`Tree.catalog`), before and after the
object at one path is replaced.  A change cannot be seen outside that path as long as no directory
on the way is named like a bare repository and the path does not end in `.git` (`Conventional`);
a repository at the path is listed unless something above it is, or a pattern excludes it.
-/

namespace Scap

variable (wildmatch : Bytes → Bytes → Bool) (exclude : List Bytes)

/-- No directory on the way to a path ends in `.git`, and the path does not end with a `.git`. -/
structure Conventional (p : List Bytes) : Prop where
  above : ∀ name ∈ p.dropLast, ¬dotGit <:+ name
  last : p.getLast? ≠ some dotGit

namespace Tree

/-- A walk of the tree finds a repository at a path. -/
def Shows (t : Tree) (q : List Bytes) : Prop := t.FoundAt wildmatch exclude q (.repo (render q))

/-- No pattern excludes a path or what is above it. -/
def Kept (q : List Bytes) : Prop :=
  ∀ a, a <+: q → a ≠ [] → isExcluded wildmatch exclude (render a) = false

variable {wildmatch exclude} {t t' : Tree} {p q : List Bytes}

/-- A walk finds a repository where it reaches a directory or a link to one with a `.git`. -/
lemma shows_iff : t.Shows wildmatch exclude q ↔
    (t.IsDir q ∨ t.IsDirLink q) ∧ t.IsRepo q ∧ t.Reached wildmatch exclude q := by
  rw [Shows, foundAt_repo_iff]
  simp

/-! ## One object -/

/-- Whether a directory holds a `.git` that stats. -/
lemma Accessible.hasGit_dir (ht : t.Accessible) (hdir : t.IsDir q) : t.hasGit (render q) =
    succeeds (((t.root.at? (q ++ [dotGit])).map (Node.find true [])).getD (.error .NOENT)) := by
  obtain ⟨attr, r, x, entries, hat⟩ := hdir
  have hcomponents := components_render (Tree.validPath hat)
  rw [hasGit_eq (by rwa [hcomponents]), hcomponents, ht.isOpen.passable hat,
    (ht q attr r x entries hat).2.1, Node.at?_append, hat]
  simp [Node.at?]

/-- An object is a repository if it is named like one or holds a `.git`. -/
lemma isRepo_iff_at (ht : t.Accessible) {n : Node} (hat : t.root.at? q = some n) :
    t.IsRepo q ↔ BareName q ∨ succeeds (n.find true [dotGit]) = true := by
  have hvalid := Tree.validPath hat
  rw [IsRepo, hasGit, components_joinRel validName_dotGit, components_render hvalid,
    ht.isOpen.find_append true hvalid hat]

/-- The same object is a repository in both trees or in neither. -/
lemma isRepo_congr (ht : t.Accessible) (ht' : t'.Accessible) {n : Node}
    (hat : t.root.at? q = some n) (hat' : t'.root.at? q = some n) : t'.IsRepo q ↔ t.IsRepo q := by
  rw [isRepo_iff_at ht hat, isRepo_iff_at ht' hat']

/-- The same object is a link to a directory in both trees or in neither. -/
lemma isDirLink_congr (ht : t.Accessible) (ht' : t'.Accessible) {n : Node}
    (hat : t.root.at? q = some n) (hat' : t'.root.at? q = some n) :
    t'.IsDirLink q ↔ t.IsDirLink q := by
  have hvalid := Tree.validPath hat
  have hfind : ∀ {u : Tree}, u.Accessible → u.root.at? q = some n →
      u.root.find true (components (render q)) = n.find true [] := by
    intro u hu huq
    have happend := hu.isOpen.find_append true hvalid huq []
    rwa [List.append_nil, ← components_render hvalid] at happend
  rw [IsDirLink, IsDirLink, leadsToDir, leadsToDir, hfind ht hat, hfind ht' hat', hat, hat']

/-- A directory and a link to one are objects. -/
lemma at?_ne_none_of_kind (h : t.IsDir q ∨ t.IsDirLink q) : ∃ n, t.root.at? q = some n := by
  rcases h with ⟨attr, r, x, entries, h⟩ | ⟨⟨attr, resolve, h⟩, -⟩ <;> exact ⟨_, h⟩

/-! ## What is not at the path -/

end Tree

namespace Conventional

variable {p q : List Bytes}

/-- What is on the way is not named like a bare repository. -/
lemma not_bareName (h : Conventional p) (hq : q <+: p) (hne : q ≠ p) : ¬Tree.BareName q := by
  rintro ⟨name, hname, hsuffix⟩
  obtain ⟨s, rfl⟩ := hq
  obtain ⟨init, rfl⟩ := List.getLast?_eq_some_iff.mp hname
  refine h.above name ?_ hsuffix
  rw [List.dropLast_append_of_ne_nil (fun hs => hne (by simp [hs]))]
  simp

/-- The path does not lead through a `.git` of what is on the way. -/
lemma not_dotGit (h : Conventional p) : ¬q ++ [dotGit] <+: p := by
  intro hq
  rcases eq_or_ne (q ++ [dotGit]) p with rfl | hne
  · exact h.last (List.getLast?_concat ..)
  · exact h.not_bareName hq hne (Tree.bareName_append_singleton.mpr List.suffix_rfl)

/-- A `.git` of what is on the way is neither on the way nor below the path. -/
lemma off (h : Conventional p) (hq : q <+: p) (hne : q ≠ p) :
    ¬q ++ [dotGit] <+: p ∧ ¬p <+: q ++ [dotGit] := by
  refine ⟨h.not_dotGit, fun hp => ?_⟩
  rcases List.prefix_concat_iff.mp hp with rfl | hpq
  · exact h.not_dotGit (List.prefix_refl _)
  · exact hne (hq.eq_of_length (Nat.le_antisymm hq.length_le hpq.length_le))

end Conventional

namespace Tree

variable {wildmatch exclude} {t t' : Tree} {p q : List Bytes}

namespace SameBut

/-- A directory on the way stays one. -/
lemma isDir_of_isDir (h : t.SameBut t' p) (hq : q <+: p) (hne : q ≠ p) (hdir : t.IsDir q) :
    t'.IsDir q := by
  refine (h.after q hq hne).resolve_right fun hnone => ?_
  obtain ⟨attr, r, x, entries, hat⟩ := hdir
  rw [hnone.2] at hat
  cases hat

/-- What there is on the way is a directory. -/
lemma isDir_of_at? (h : t.SameBut t' p) (hq : q <+: p) (hne : q ≠ p) {n : Node}
    (hat : t.root.at? q = some n) : t.IsDir q := (h.before q hq hne).resolve_right (by simp [hat])

/-- A directory that is not at the path stays one, and is a repository as before. -/
lemma of_isDir (h : t.SameBut t' p) (ht : t.Accessible) (ht' : t'.Accessible)
    (hp : Conventional p) (hq : ¬p <+: q) (hdir : t.IsDir q) :
    t'.IsDir q ∧ (t'.IsRepo q ↔ t.IsRepo q) := by
  by_cases hway : q <+: p
  · have hne : q ≠ p := fun heq => hq (heq ▸ List.prefix_refl q)
    have hdir' := h.isDir_of_isDir hway hne hdir
    obtain ⟨hoff, hoff'⟩ := hp.off hway hne
    refine ⟨hdir', ?_⟩
    rw [IsRepo, IsRepo, ht.hasGit_dir hdir, ht'.hasGit_dir hdir', h.off _ hoff hoff']
  · have hat' := h.off q hway hq
    obtain ⟨attr, r, x, entries, hat⟩ := hdir
    rw [hat] at hat'
    exact ⟨⟨attr, r, x, entries, hat'⟩, isRepo_congr ht ht' hat hat'⟩

/-- What is listed and is not at the path was there before. -/
lemma at?_of_shows (h : t.SameBut t' p) (ht' : t'.Accessible) (hp : Conventional p)
    (hq : ¬p <+: q) (hkind : t'.IsDir q ∨ t'.IsDirLink q) (hrepo : t'.IsRepo q) :
    ∃ n, t.root.at? q = some n := by
  by_cases hway : q <+: p
  · have hne : q ≠ p := fun heq => hq (heq ▸ List.prefix_refl q)
    rcases h.before q hway hne with ⟨attr, r, x, entries, hat⟩ | hnone
    · exact ⟨_, hat⟩
    · obtain ⟨n, hat'⟩ := at?_ne_none_of_kind hkind
      have hdir' := (h.after q hway hne).resolve_right fun hnone' => by simp [hnone'.1] at hat'
      -- A directory that was made holds nothing but the next one on the way.
      obtain ⟨hoff, hoff'⟩ := hp.off hway hne
      have hgit : t.root.at? (q ++ [dotGit]) = none := by
        rw [Node.at?_append, hnone, Option.bind_none]
      refine absurd hrepo (not_or.mpr ⟨hp.not_bareName hway hne, ?_⟩)
      rw [ht'.hasGit_dir hdir', h.off _ hoff hoff', hgit]
      simp [succeeds, Except.toBool]
  · obtain ⟨n, hat'⟩ := at?_ne_none_of_kind hkind
    exact ⟨n, by rwa [← h.off q hway hq]⟩

/-- What is not at the path is reached as before, if it was there before. -/
lemma reached_iff (h : t.SameBut t' p) (ht : t.Accessible) (ht' : t'.Accessible)
    (hp : Conventional p) (hq : ¬p <+: q) {n : Node} (hat : t.root.at? q = some n) :
    t'.Reached wildmatch exclude q ↔ t.Reached wildmatch exclude q := by
  have habove : ∀ a, a <+: q → a ≠ q →
      t.IsDir a ∧ t'.IsDir a ∧ (t'.IsRepo a ↔ t.IsRepo a) := by
    intro a ha hne
    have hdir := Tree.isDir_of_at? hat ha hne
    exact ⟨hdir, h.of_isDir ht ht' hp (fun hpa => hq (hpa.trans ha)) hdir⟩
  constructor
  · rintro ⟨hreached, hkept⟩
    refine ⟨fun a ha hne => ?_, hkept⟩
    obtain ⟨hdir, -, hrepo⟩ := habove a ha hne
    exact ⟨hdir, fun hr => (hreached a ha hne).2 (hrepo.mpr hr)⟩
  · rintro ⟨hreached, hkept⟩
    refine ⟨fun a ha hne => ?_, hkept⟩
    obtain ⟨-, hdir', hrepo⟩ := habove a ha hne
    exact ⟨hdir', fun hr => (hreached a ha hne).2 (hrepo.mp hr)⟩

/-- What is not at the path is listed as before. -/
lemma shows_iff (h : t.SameBut t' p) (ht : t.Accessible) (ht' : t'.Accessible)
    (hp : Conventional p) (hq : ¬p <+: q) :
    t'.Shows wildmatch exclude q ↔ t.Shows wildmatch exclude q := by
  rw [Tree.shows_iff, Tree.shows_iff]
  constructor
  · rintro ⟨hkind, hrepo, hreached⟩
    obtain ⟨n, hat⟩ := h.at?_of_shows ht' hp hq hkind hrepo
    rw [h.reached_iff ht ht' hp hq hat] at hreached
    by_cases hway : q <+: p
    · have hne : q ≠ p := fun heq => hq (heq ▸ List.prefix_refl q)
      have hdir := h.isDir_of_at? hway hne hat
      exact ⟨.inl hdir, (h.of_isDir ht ht' hp hq hdir).2.mp hrepo, hreached⟩
    · have hat' : t'.root.at? q = some n := by rwa [h.off q hway hq]
      refine ⟨hkind.imp ?_ (isDirLink_congr ht ht' hat hat').mp,
        (isRepo_congr ht ht' hat hat').mp hrepo, hreached⟩
      exact fun ⟨attr, r, x, entries, hdir⟩ => ⟨attr, r, x, entries, by rw [← hdir, hat, hat']⟩
  · rintro ⟨hkind, hrepo, hreached⟩
    obtain ⟨n, hat⟩ := at?_ne_none_of_kind hkind
    refine ⟨?_, ?_, (h.reached_iff ht ht' hp hq hat).mpr hreached⟩
    · rcases hkind with hdir | hlink
      · exact .inl (h.of_isDir ht ht' hp hq hdir).1
      · by_cases hway : q <+: p
        · have hne : q ≠ p := fun heq => hq (heq ▸ List.prefix_refl q)
          exact .inl (h.isDir_of_isDir hway hne (h.isDir_of_at? hway hne hat))
        · exact .inr ((isDirLink_congr ht ht' hat ((h.off q hway hq).trans hat)).mpr hlink)
    · by_cases hway : q <+: p
      · have hne : q ≠ p := fun heq => hq (heq ▸ List.prefix_refl q)
        have hdir := h.isDir_of_at? hway hne hat
        exact (h.of_isDir ht ht' hp hq hdir).2.mpr hrepo
      · exact (isRepo_congr ht ht' hat ((h.off q hway hq).trans hat)).mpr hrepo

end SameBut

/-! ## What is on the way -/

/-- What is reached is not below anything that is listed, and conversely. -/
lemma reached_iff_forall (hway : ∀ a, a <+: q → a ≠ q → t.IsDir a) :
    t.Reached wildmatch exclude q ↔ Kept wildmatch exclude q ∧
      ∀ a, a <+: q → t.Shows wildmatch exclude a → a = q := by
  constructor
  · rintro ⟨habove, hkept⟩
    refine ⟨hkept, fun a ha hshows => ?_⟩
    by_contra hne
    exact (habove a ha hne).2 (Tree.shows_iff.mp hshows).2.1
  · rintro ⟨hkept, hfree⟩
    -- By induction on the path: what is above a directory on the way is no repository.
    have hreached : ∀ a, a <+: q → t.Reached wildmatch exclude a := by
      intro a
      induction a using List.reverseRecOn with
      | nil => exact fun _ => reached_nil
      | append_singleton a name ih =>
        intro ha
        have hprefix : a <+: q := (List.prefix_append ..).trans ha
        have hne : a ≠ q := fun heq => absurd (heq ▸ ha).length_le (by simp)
        refine reached_append_singleton.mpr ⟨ih hprefix, hway a hprefix hne, fun hrepo => ?_,
          hkept _ ha (by simp)⟩
        exact hne (hfree a hprefix (Tree.shows_iff.mpr
          ⟨.inl (hway a hprefix hne), hrepo, ih hprefix⟩))
    exact hreached q (List.prefix_refl q)

/-! ## The tree of a root -/

variable (wildmatch exclude) in
/-- The repositories that a walk of a root finds, by their paths in the file system. -/
def catalog (t : Tree) (r : List Bytes) : Set (List Bytes) :=
  {q | ∃ (u : Tree) (s : List Bytes),
    t.root.at? r = some u.root ∧ q = r ++ s ∧ u.Shows wildmatch exclude s}

variable {r : List Bytes} {u u' : Tree}

/-- A tree of what lies at a path, unless that is a link. -/
lemma exists_root {n : Node} (h : t.root.at? r = some n)
    (hlink : ∀ attr resolve, n ≠ .link attr resolve) : ∃ u : Tree, t.root.at? r = some u.root := by
  have hat : ∀ s, n.at? s = t.root.at? (r ++ s) := fun s => by
    rw [Node.at?_append, h, Option.bind_some]
  exact ⟨⟨n, hlink,
    fun p attr rd x entries hp => t.distinct (r ++ p) attr rd x entries (hat p ▸ hp),
    fun p attr rd x entries hp => t.valid (r ++ p) attr rd x entries (hat p ▸ hp)⟩, h⟩

/-- Below a root is what the whole tree has there. -/
lemma at?_of_root (h : t.root.at? r = some u.root) (s : List Bytes) :
    u.root.at? s = t.root.at? (r ++ s) := by
  rw [Node.at?_append, h, Option.bind_some]

/-- A directory below a root is one of the whole tree. -/
lemma isDir_of_root (h : t.root.at? r = some u.root) {s : List Bytes} :
    u.IsDir s ↔ t.IsDir (r ++ s) := by
  simp only [IsDir, at?_of_root h]

/-- The directories below a root are accessible with all the others. -/
lemma Accessible.of_root (ht : t.Accessible) (h : t.root.at? r = some u.root) : u.Accessible :=
  fun p attr rd x entries hp => ht (r ++ p) attr rd x entries (by rwa [← at?_of_root h])

/-- A directory below a root is a repository in the root's tree as in the file system. -/
lemma isRepo_of_root (ht : t.Accessible) (h : t.root.at? r = some u.root) {s : List Bytes}
    (hs : s ≠ []) (hdir : t.IsDir (r ++ s)) : u.IsRepo s ↔ t.IsRepo (r ++ s) := by
  have hname : BareName s ↔ BareName (r ++ s) := by
    rw [BareName, BareName, List.getLast?_append_of_ne_nil r hs]
  rw [IsRepo, IsRepo, hname, ht.hasGit_dir hdir,
    (ht.of_root h).hasGit_dir ((isDir_of_root h).mpr hdir), at?_of_root h, List.append_assoc]

/-- What a walk of a root finds is what there is in its tree. -/
lemma catalog_eq (h : t.root.at? r = some u.root) :
    t.catalog wildmatch exclude r = (r ++ ·) '' {s | u.Shows wildmatch exclude s} := by
  ext q
  constructor
  · rintro ⟨v, s, hv, rfl, hshows⟩
    obtain ⟨root, _, _, _⟩ := v
    obtain ⟨root', _, _, _⟩ := u
    obtain rfl : root = root' := Option.some.inj (hv.symm.trans h)
    exact ⟨s, hshows, rfl⟩
  · rintro ⟨s, hshows, rfl⟩
    exact ⟨u, s, h, rfl, hshows⟩

/-- Every walk of a root that is not named like a bare repository lists its catalog, each path
once. -/
lemma Accessible.walkRoot_catalog (ht : t.Accessible) (h : t.root.at? r = some u.root)
    (hdir : u.IsDir []) {opts : WalkOptions} {root : Bytes} (hnul : 0 ∉ root)
    (hbare : isBareRoot root = false) {result : Except WalkError RootListing}
    (hwalk : WalkRoot wildmatch u.host root opts result) :
    ∃ listing, result = .ok listing ∧ listing.arena.Nodup ∧ ∀ path, path ∈ listing.arena ↔
      ∃ x, r ++ x ∈ t.catalog wildmatch opts.exclude r ∧ path = Tree.printed (render x) := by
  obtain ⟨listing, found, rfl, hfinds, hnodup, hfound⟩ :=
    hwalk.finds (ht.of_root h) hdir hnul hbare
  refine ⟨listing, rfl, hfinds.arena.nodup_iff.mpr
    (nodup_reposOf hnodup fun record hr => (hfound record).mp hr), fun path => ?_⟩
  rw [hfinds.arena.mem_iff, mem_reposOf_iff, catalog_eq h]
  constructor
  · rintro ⟨rel, hrel, rfl⟩
    obtain ⟨x, hx⟩ := (hfound _).mp hrel
    obtain rfl : rel = render x := (foundAt_repo_iff.mp hx).2.2.2
    exact ⟨x, ⟨x, hx, rfl⟩, rfl⟩
  · rintro ⟨x, ⟨y, hy, heq⟩, rfl⟩
    obtain rfl := List.append_cancel_left heq
    exact ⟨render y, (hfound _).mpr ⟨y, hy⟩, rfl⟩

/-- Where there is nothing, nothing is listed. -/
lemma catalog_of_none (h : t.root.at? r = none) : t.catalog wildmatch exclude r = ∅ := by
  refine Set.eq_empty_of_forall_notMem ?_
  rintro q ⟨u, s, hu, -⟩
  rw [h] at hu
  cases hu

/-- A directory without entries. -/
def vacant : Tree := .ofDir ⟨0, 0, 0o755, 0, 0⟩ true true [] (.emptyDir _)

/-- A vacant tree has nothing below its root. -/
lemma at?_vacant {q : List Bytes} (hq : q ≠ []) : vacant.root.at? q = none := by
  obtain ⟨name, q, rfl⟩ := List.exists_cons_of_ne_nil hq
  rfl

/-- A vacant tree is accessible. -/
lemma accessible_vacant : vacant.Accessible := by
  intro p attr rd x entries hp
  rcases eq_or_ne p [] with rfl | hne
  · cases (Node.at?_nil _).symm.trans hp
    exact ⟨rfl, rfl, by decide⟩
  · rw [at?_vacant hne] at hp
    cases hp

/-- A walk finds nothing in a vacant tree. -/
lemma not_shows_vacant (q : List Bytes) : ¬vacant.Shows wildmatch exclude q := by
  intro hshows
  obtain ⟨hkind, hrepo, -⟩ := Tree.shows_iff.mp hshows
  obtain ⟨n, hat⟩ := at?_ne_none_of_kind hkind
  rcases eq_or_ne q [] with rfl | hne
  · refine absurd hrepo (not_or.mpr ⟨not_bareName_nil, ?_⟩)
    have hdir : vacant.IsDir [] := ⟨_, _, _, _, rfl⟩
    rw [accessible_vacant.hasGit_dir hdir, at?_vacant (by simp)]
    simp [succeeds, Except.toBool]
  · rw [at?_vacant hne] at hat
    cases hat

/-- The tree of a root, which is vacant if there is no root. -/
lemma Accessible.exists_tree (ht : t.Accessible) (h : t.IsDir r ∨ t.root.at? r = none) :
    ∃ u : Tree, u.Accessible ∧ u.IsDir [] ∧ (∀ q ≠ [], u.root.at? q = t.root.at? (r ++ q)) ∧
      t.catalog wildmatch exclude r = (r ++ ·) '' {q | u.Shows wildmatch exclude q} := by
  rcases h with ⟨attr, rd, x, entries, hat⟩ | hnone
  · obtain ⟨u, hu⟩ := exists_root hat (by simp)
    refine ⟨u, ht.of_root hu, (isDir_of_root hu).mpr ?_, fun q _ => at?_of_root hu q,
      catalog_eq hu⟩
    rw [List.append_nil]
    exact ⟨attr, rd, x, entries, hat⟩
  · refine ⟨vacant, accessible_vacant, ⟨_, _, _, _, rfl⟩, fun q hq => ?_, ?_⟩
    · rw [at?_vacant hq, Node.at?_append, hnone, Option.bind_none]
    · rw [catalog_of_none hnone]
      simp [not_shows_vacant]

/-- A change below a root is a change in the root's tree. -/
lemma SameBut.exists_roots {s : List Bytes} (h : t.SameBut t' (r ++ s)) (hs : s ≠ [])
    (ht : t.Accessible) (ht' : t'.Accessible) :
    ∃ u u' : Tree, u.SameBut u' s ∧ u.Accessible ∧ u'.Accessible ∧
      t.catalog wildmatch exclude r = (r ++ ·) '' {q | u.Shows wildmatch exclude q} ∧
      t'.catalog wildmatch exclude r = (r ++ ·) '' {q | u'.Shows wildmatch exclude q} := by
  have hcut : ∀ {q}, r ++ q <+: r ++ s ↔ q <+: s := List.prefix_append_right_inj r
  have hcut' : ∀ {q}, r ++ s <+: r ++ q ↔ s <+: q := List.prefix_append_right_inj r
  have hne : r ≠ r ++ s := by simpa using hs
  obtain ⟨u, hu, hdir, hat, hcatalog⟩ :=
    ht.exists_tree (h.before r (List.prefix_append ..) hne)
  obtain ⟨u', hu', hdir', hat', hcatalog'⟩ :=
    ht'.exists_tree ((h.after r (List.prefix_append ..) hne).imp_right And.left)
  refine ⟨u, u', ⟨fun q hq hsq => ?_, fun q hq hqs => ?_, fun q hq hqs => ?_⟩, hu, hu', hcatalog,
    hcatalog'⟩
  · have hq' : q ≠ [] := by
      rintro rfl
      exact hq List.nil_prefix
    rw [hat q hq', hat' q hq', h.off _ (mt hcut.mp hq) (mt hcut'.mp hsq)]
  · rcases eq_or_ne q [] with rfl | hq'
    · exact .inl hdir
    · simp only [IsDir, hat q hq']
      exact h.before (r ++ q) (hcut.mpr hq) (by simpa using hqs)
  · rcases eq_or_ne q [] with rfl | hq'
    · exact .inl hdir'
    · simp only [IsDir, hat q hq', hat' q hq']
      exact h.after (r ++ q) (hcut.mpr hq) (by simpa using hqs)

/-- A path that is neither above nor below a root is not below what is below the root. -/
lemma not_prefix_append (hr : ¬r <+: p) (hp : ¬p <+: r) (s : List Bytes) : ¬p <+: r ++ s :=
  fun h => (List.prefix_or_prefix_of_prefix h (List.prefix_append r s)).elim hp hr

/-- What is not at the path is listed as before. -/
lemma SameBut.mem_catalog_iff (h : t.SameBut t' p) (ht : t.Accessible) (ht' : t'.Accessible)
    (hp : ∀ s, p = r ++ s → Conventional s) (hr : ¬p <+: r) (hq : ¬p <+: q) :
    q ∈ t'.catalog wildmatch exclude r ↔ q ∈ t.catalog wildmatch exclude r := by
  by_cases hroot : r <+: p
  · obtain ⟨s, rfl⟩ := hroot
    obtain ⟨u, u', hsame, hu, hu', hcatalog, hcatalog'⟩ :=
      h.exists_roots (by rintro rfl; simp at hr) ht ht'
    rw [hcatalog, hcatalog']
    have hiff : ∀ a, r ++ a = q → (u'.Shows wildmatch exclude a ↔ u.Shows wildmatch exclude a) := by
      rintro a rfl
      exact hsame.shows_iff hu hu' (hp s rfl) (mt (List.prefix_append_right_inj r).mpr hq)
    exact exists_congr fun a => ⟨fun ⟨hshows, ha⟩ => ⟨(hiff a ha).mp hshows, ha⟩,
      fun ⟨hshows, ha⟩ => ⟨(hiff a ha).mpr hshows, ha⟩⟩
  · have hat := h.off r hroot hr
    simp only [catalog, hat]

/-- Of what is at or below a repository at most that is listed: if it is below the root, no pattern
excludes it and nothing above it is listed. -/
lemma mem_catalog_of_isRepo (ht : t.Accessible) (hdir : t.IsDir p) (hrepo : t.IsRepo p)
    (hr : ¬p <+: r) (hq : p <+: q) :
    q ∈ t.catalog wildmatch exclude r ↔ q = p ∧ (∃ s, p = r ++ s ∧ Kept wildmatch exclude s) ∧
      ∀ a ∈ t.catalog wildmatch exclude r, a <+: p → a = p := by
  by_cases hroot : r <+: p
  · obtain ⟨s, rfl⟩ := hroot
    have hs : s ≠ [] := by
      rintro rfl
      simp at hr
    obtain ⟨attr, rd, x, entries, hat⟩ := hdir
    obtain ⟨attr', rd', x', entries', hat'⟩ :=
      Tree.isDir_of_at? hat (List.prefix_append r s) (by simpa using hs)
    obtain ⟨u, hu⟩ := exists_root hat' (by simp)
    have hdir' : u.IsDir s := (isDir_of_root hu).mpr ⟨attr, rd, x, entries, hat⟩
    have hrepo' : u.IsRepo s := (isRepo_of_root ht hu hs ⟨attr, rd, x, entries, hat⟩).mpr hrepo
    have hway : ∀ a, a <+: s → a ≠ s → u.IsDir a := by
      obtain ⟨attr, rd, x, entries, hat⟩ := hdir'
      exact fun a ha hne => Tree.isDir_of_at? hat ha hne
    rw [catalog_eq hu]
    constructor
    · rintro ⟨x, hshows, rfl⟩
      obtain ⟨-, -, hreached⟩ := Tree.shows_iff.mp hshows
      have hsx : s <+: x := (List.prefix_append_right_inj r).mp hq
      obtain rfl : x = s := by
        by_contra hne
        exact (hreached.above s hsx (Ne.symm hne)).2 hrepo'
      obtain ⟨hkept, hfree⟩ := (reached_iff_forall hway).mp hreached
      refine ⟨rfl, ⟨x, rfl, hkept⟩, ?_⟩
      rintro _ ⟨a, ha, rfl⟩ hax
      exact congrArg (r ++ ·) (hfree a ((List.prefix_append_right_inj r).mp hax) ha)
    · rintro ⟨rfl, ⟨s', heq, hkept⟩, hfree⟩
      obtain rfl := List.append_cancel_left heq
      refine ⟨s, Tree.shows_iff.mpr ⟨.inl hdir', hrepo', (reached_iff_forall hway).mpr ⟨hkept, ?_⟩⟩,
        rfl⟩
      exact fun a ha hshows => List.append_cancel_left
        (hfree _ ⟨a, hshows, rfl⟩ ((List.prefix_append_right_inj r).mpr ha))
  · refine iff_of_false ?_ ?_
    · rintro ⟨u, s, hu, rfl, -⟩
      exact not_prefix_append hroot hr s hq
    · rintro ⟨-, ⟨s, rfl, -⟩, -⟩
      exact hroot (List.prefix_append ..)

/-- Where there is nothing, nothing is listed. -/
lemma not_mem_catalog_of_none (h : t.root.at? p = none) (hq : p <+: q) :
    q ∉ t.catalog wildmatch exclude r := by
  rintro ⟨u, s, hu, rfl, hshows⟩
  obtain ⟨n, hat⟩ := at?_ne_none_of_kind (Tree.shows_iff.mp hshows).1
  rw [at?_of_root hu, at?_eq_none_of_prefix h hq] at hat
  cases hat

end Tree

end Scap
