import Scap.Index.Later

/-!
# Whether a validated entry is still what it was

The directories that the pass keeps are compared with a fresh walk of the tree they were validated
against.  Where a directory and those above it are unchanged, the walk reads it unless a `.git`
symlink that did not resolve before does now (`Tree.GitLink`, `reads_iff`).  From this follow
exactly when a validated directory is a repository after all (`validated_dir_iff`) and when a
validated repository is no longer one to the walk (`validated_repo_iff`).
-/

namespace Scap

variable {wildmatch : Bytes → Bytes → Bool} {before now : Tree} {root : Bytes} {index : Index}
  {exclude : List Bytes} {spared : Bytes → Bool} {records : List Record} {outcome : Outcome}

/-! ## Getting to a path -/

/-- One gets to an entry through its directory. -/
lemma Node.passable_append_singleton {n : Node} {p : List Bytes} {name : Bytes} {attr : Attr}
    {r x : Bool} {entries : List (Bytes × Bool × Node)}
    (hat : n.at? p = some (.dir attr r x entries))
    (hname : (lookup entries name).isSome) : n.passable (p ++ [name]) = (n.passable p && x) := by
  induction p generalizing n with
  | nil =>
    obtain rfl : n = .dir attr r x entries := by simpa using hat
    obtain ⟨m, hm⟩ := Option.isSome_iff_exists.mp hname
    simp [passable, hm]
  | cons first p ih =>
    cases n with
    | dir attr' r' x' entries' =>
      obtain ⟨k, hk, hat⟩ := Option.bind_eq_some_iff.mp hat
      have hrest := ih hat
      cases x' <;> simp [passable, hk, hrest]
    | _ => simp [at?] at hat

namespace Tree

/-- A directory that can be searched and whose `.git` is a symlink that resolves. -/
def GitLink (t : Tree) (p : List Bytes) : Prop :=
  ∃ attr r entries linkAttr resolve stat, t.root.at? p = some (.dir attr r true entries) ∧
    t.root.at? (p ++ [dotGit]) = some (.link linkAttr resolve) ∧ resolve [] = .ok stat

/-- In an unchanged directory that was no repository, only a `.git` symlink can have become one. -/
lemma inside_iff_gitLink {p : List Bytes} (hsame : before.Unchanged now p)
    (hopens : before.opens (render p) = true) (hopens' : now.opens (render p) = true)
    (houtside : before.inside (render p) = false) :
    now.inside (render p) = true ↔ now.GitLink p := by
  obtain ⟨attr, attr', r, x, entries, entries', hat, hat', -, hperm⟩ := hsame
  have hcat := Tree.at?_render hat
  have hcat' := Tree.at?_render hat'
  rw [inside_eq hcat, hasGit_eq hcat, passable_of_opens hcat hopens, Bool.true_and] at houtside
  rw [inside_eq hcat', hasGit_eq hcat', passable_of_opens hcat' hopens', Bool.true_and]
  cases hfind : entries'.find? fun e => e.1 = dotGit with
  | none =>
    simp only [Bool.false_eq_true, false_iff]
    rintro ⟨_, _, _, linkAttr, resolve, _, -, hlink, -⟩
    obtain ⟨e', he', hname, -⟩ := exists_entry hat' hlink
    exact absurd hname (by simpa using List.find?_eq_none.mp hfind e' he')
  | some e' =>
    have he' := List.mem_of_find?_eq_some hfind
    have hname' : e'.1 = dotGit := by simpa using List.find?_some hfind
    obtain ⟨e, he, hname, htyped, htype⟩ := exists_of_entryTypes hperm.symm he'
    have hfind₀ := find?_eq_some_of_mem (before.distinct _ _ _ _ _ hat) he
    rw [hname, hname'] at hfind₀
    have hlookup : Node.lookup entries dotGit = some e.2.2 := by rw [Node.lookup, hfind₀]; rfl
    have hlookup' : Node.lookup entries' dotGit = some e'.2.2 := by rw [Node.lookup, hfind]; rfl
    have hgit : now.root.at? (p ++ [dotGit]) = some e'.2.2 := by rw [← hname', at?_entry hat' he']
    rw [hfind₀, hlookup, Option.map_some, Option.getD_some] at houtside
    rw [hlookup', Option.map_some, Option.getD_some]
    dsimp only at houtside ⊢
    rw [htyped, htype] at houtside
    by_cases hlink : e'.2.2.fileType = .symlink
    · obtain ⟨linkAttr, resolve, hnode⟩ := Node.exists_link_of_fileType hlink
      rw [if_neg (by simp [hlink]), hnode, Node.find, if_pos rfl]
      rw [hnode] at hgit
      constructor
      · intro hinside
        obtain ⟨rfl, hresolves⟩ := Bool.and_eq_true_iff.mp hinside
        cases hstat : resolve [] with
        | ok stat => exact ⟨attr', r, entries', linkAttr, resolve, stat, hat', hgit, hstat⟩
        | error err => simp [hstat, succeeds, Except.toBool] at hresolves
      · rintro ⟨_, _, _, _, _, stat, hdir, hgit', hstat⟩
        obtain ⟨-, -, rfl, -⟩ : _ ∧ _ ∧ x = true ∧ _ := by simpa using hat'.symm.trans hdir
        obtain ⟨-, rfl⟩ : linkAttr = _ ∧ resolve = _ := by simpa using hgit.symm.trans hgit'
        simp [hstat, succeeds, Except.toBool]
    · -- Any other `.git` went unnoticed because its type had to be asked for and could not be.
      have hbefore : e.2.2.fileType ≠ .symlink := by rwa [htype]
      rw [Node.find_nil_of_fileType hbefore] at houtside
      rw [Node.find_nil_of_fileType hlink]
      have htyped' : e'.2.1 = false := by
        rw [Bool.eq_false_iff]
        intro htrue
        rw [if_pos ⟨htrue, hlink⟩] at houtside
        cases houtside
      rw [htyped', if_neg (by simp), Bool.and_eq_false_iff] at houtside
      obtain rfl : x = false := houtside.resolve_right (by simp [succeeds, Except.toBool])
      simp only [htyped', Bool.false_eq_true, false_and, if_false, Bool.false_and, false_iff]
      rintro ⟨_, _, _, _, _, _, hdir, -, -⟩
      exact absurd (hat'.symm.trans hdir) (by simp)

/-- A root that could be opened can be opened still, where it did not change. -/
lemma opens_nil_of_unchanged (hopens : before.opens [] = true) (hsame : before.Unchanged now []) :
    now.opens [] = true := by
  obtain ⟨attr, attr', r, x, entries, entries', hat, hat', -, -⟩ := hsame
  have hcat : before.root.at? (components []) = some (.dir attr r x entries) := hat
  have hcat' : now.root.at? (components []) = some (.dir attr' r x entries') := hat'
  rw [opens_eq hcat, Bool.and_eq_true] at hopens
  rw [opens_eq hcat', hopens.2]
  rfl

/-- What could be opened can be opened still, where neither it nor anything above it changed. -/
lemma opens_of_unchanged {p : List Bytes} (hreads : before.Reads wildmatch exclude p)
    (hsame : ∀ q, q <+: p → before.Unchanged now q) : now.opens (render p) = true := by
  induction p using List.reverseRecOn with
  | nil =>
    exact opens_nil_of_unchanged (hreads.opened [] List.nil_prefix).2 (hsame [] List.nil_prefix)
  | append_singleton p name ih =>
    have hparent := hreads.of_prefix (List.prefix_append p [name])
    have hopens' := ih hparent fun q hq => hsame q (hq.trans (List.prefix_append ..))
    obtain ⟨attr, attr', r, x, entries, entries', hat, hat', -, -⟩ :=
      hsame p (List.prefix_append ..)
    obtain ⟨cattr, cattr', cr, cx, centries, centries', hchild, hchild', -, -⟩ :=
      hsame (p ++ [name]) (List.prefix_refl _)
    have hopens := (hreads.opened _ (List.prefix_refl _)).2
    obtain ⟨e, he, rfl, -⟩ := exists_entry hat hchild
    obtain ⟨e', he', hname, -⟩ := exists_entry hat' hchild'
    have hx : x = true := searchable_of_opens hat he (by rwa [← render_append_singleton])
    have hcat' := Tree.at?_render hat'
    have hlookup : (Node.lookup entries' e.1).isSome := by
      rw [← hname, Node.lookup_eq_some_of_mem (now.distinct _ _ _ _ _ hat') he']
      rfl
    have hcomponents : components (render (p ++ [e.1])) = p ++ [e.1] :=
      components_render (Tree.validPath hchild')
    rw [opens_eq (hcomponents.symm ▸ hchild)] at hopens
    rw [opens_eq (hcomponents.symm ▸ hchild'), hcomponents,
      Node.passable_append_singleton hat' hlookup, hx]
    have hpass := passable_of_opens hcat' hopens'
    rw [components_render (Tree.validPath hat')] at hpass
    rw [hpass, (Bool.and_eq_true_iff.mp hopens).2]
    rfl

/-- A directory that was read is read still, where neither it nor anything above it changed, unless
a `.git` symlink above it resolves now. -/
lemma reads_iff_of_unchanged {p : List Bytes} (hreads : before.Reads wildmatch exclude p)
    (hsame : ∀ q, q <+: p → before.Unchanged now q) :
    now.Reads wildmatch exclude p ↔ ∀ q, q <+: p → q ≠ p → ¬now.GitLink q := by
  have hopens' : ∀ q, q <+: p → now.opens (render q) = true := fun q hq =>
    opens_of_unchanged (hreads.of_prefix hq) fun q' hq' => hsame q' (hq'.trans hq)
  have hinside : ∀ q, q <+: p → q ≠ p → (now.inside (render q) = true ↔ now.GitLink q) :=
    fun q hq hne => inside_iff_gitLink (hsame q hq) (hreads.opened q hq).2 (hopens' q hq)
      (hreads.outside q hq hne)
  constructor
  · intro h q hq hne hlink
    rw [← hinside q hq hne, h.outside q hq hne] at hlink
    cases hlink
  · intro h
    refine ⟨fun q hq => ⟨?_, hopens' q hq⟩, hreads.kept, hreads.plain, fun q hq hne => ?_⟩
    · obtain ⟨_, attr', r, x, _, entries', -, hat', -⟩ := hsame q hq
      exact ⟨attr', r, x, entries', hat'⟩
    · rw [Bool.eq_false_iff, Ne, hinside q hq hne]
      exact h q hq hne

/-- A root that was walked into is walked into still, where it did not change. -/
lemma WalksInto.of_unchanged (h : before.WalksInto root) (hsame : before.Unchanged now []) :
    now.WalksInto root := by
  refine ⟨h.noNul, ?_, h.notBare, opens_nil_of_unchanged h.opens hsame⟩
  obtain ⟨attr, attr', r, x, entries, entries', hat, hat', hmode, -⟩ := hsame
  have hroot : before.root = .dir attr r x entries := by simpa using hat
  have hroot' : now.root = .dir attr' r x entries' := by simpa using hat'
  have hwalkable := h.walkable
  simpa [rootIsWalkable, host, hroot, hroot', Node.stat, Node.attr, Node.fileType,
    hmode] using hwalkable

end Tree

/-! ## Validated directories -/

/-- A validated directory, with everything above it unchanged since, is not a repository to a fresh
walk if and only if its own `.git` is not a symlink that resolves now, or the `.git` of a directory
above it is one. -/
theorem validated_dir_iff (hbuilt : index.BuiltFrom wildmatch before root)
    (hvalidates : index.Validates now root outcome) {rel : Bytes} {mtime : Int64}
    (hhit : Record.dir rel mtime ∈ outcome.fresh)
    (hsame : ∀ q mtime, q <+: components rel → Record.dir (render q) mtime ∈ outcome.fresh →
      before.Unchanged now q)
    {opts : WalkOptions} (hexclude : opts.exclude = index.exclude) {full : Bytes → Bool}
    {fresh : RootListing} (hfresh : WalkRootCapped wildmatch full now.host root opts (.ok fresh)) :
    Tree.printed rel ∉ fresh.arena ↔ ¬now.GitLink (components rel) ∨
      ∃ q, q <+: components rel ∧ q ≠ components rel ∧ now.GitLink q := by
  obtain ⟨-, ⟨-, hbare⟩ | ⟨-, spared, records, h⟩⟩ := hbuilt.cases
  · cases (hvalidates.of_bare hbare).1 _ hhit
  · obtain ⟨hmem, -, p, hp, hrel, habove⟩ := h.of_mem_fresh hvalidates hhit
    obtain rfl : rel = render p := hrel
    obtain ⟨hreads, -, houtside⟩ := h.reads_of_dir hmem
    rw [components_render hp] at hsame hreads ⊢
    have hunchanged : ∀ q, q <+: p → before.Unchanged now q := by
      intro q hq
      rcases eq_or_ne q p with rfl | hne
      · exact hsame q mtime hq hhit
      · obtain ⟨mtime', hdir⟩ := habove q hq hne
        exact hsame q mtime' hq hdir
    have hinto := h.walksInto.of_unchanged (hunchanged [] List.nil_prefix)
    obtain ⟨listing, hok, hreports⟩ := hfresh.reports hinto
    obtain rfl : fresh = listing := by simpa using hok
    have hopens := Tree.opens_of_unchanged hreads hunchanged
    obtain ⟨_, attr, r, x, _, entries, -, hat, -⟩ := hunchanged p (List.prefix_refl p)
    rw [hexclude] at hreports
    rw [hreports.mem_arena_iff hinto.opens hp, Tree.repo_mem_found_iff_of_opens hinto.opens
      ⟨attr, r, x, entries, hat⟩ hopens (hreads.plain p (List.prefix_refl p)),
      Tree.reads_iff_of_unchanged hreads hunchanged, Tree.inside_iff_gitLink
      (hunchanged p (List.prefix_refl p)) (hreads.opened p (List.prefix_refl p)).2 hopens houtside]
    constructor
    · intro h
      by_cases hself : now.GitLink p
      · by_contra hnot
        rw [not_or, not_exists] at hnot
        exact h ⟨fun q hq hne hlink => hnot.2 q ⟨hq, hne, hlink⟩, hself⟩
      · exact .inl hself
    · rintro (hself | ⟨q, hq, hne, hlink⟩) ⟨habove, hself'⟩
      · exact hself hself'
      · exact habove q hq hne hlink

/-- A root with one symlink, which leads to a directory or nowhere. -/
def linkRoot (name : Bytes) (hname : ValidName name) (resolves : Bool) : Tree :=
  .ofDir ⟨1, 2, 0o755, 100, 0⟩ true true [(name, true, .link ⟨1, 3, 0o777, 100, 0⟩ fun _ =>
      if resolves then .ok ⟨⟨1, 4, 0o755, 100, 0⟩, .directory⟩ else .error .NOENT)]
    (.dir (List.nodup_singleton _) (by simpa using ⟨hname, .link _ _⟩))

/-- What becomes of the symlink's target does not change the root. -/
lemma linkRoot_unchanged (name : Bytes) (hname : ValidName name) (resolves resolves' : Bool) :
    (linkRoot name hname resolves).Unchanged (linkRoot name hname resolves') [] :=
  ⟨_, _, _, _, _, _, rfl, rfl, rfl, .refl _⟩

/-- The root `/r` whose `.git` is a symlink. -/
def gitLinkRoot (resolves : Bool) : Tree := linkRoot dotGit validName_dotGit resolves

/-- The index of that root while the symlink leads nowhere. -/
def gitLinkIndex : Index :=
  ⟨ascii ['/', 'r'], 1, 2, 200000000000, [], [⟨[], some 100000000000, []⟩]⟩

/-- The index of the sample is built from its walk. -/
lemma gitLinkIndex_builtFrom :
    gitLinkIndex.BuiltFrom (fun _ _ => false) (gitLinkRoot false) (ascii ['/', 'r']) := by
  refine ⟨fun _ => false, ⟨2, [], .openScan, true⟩, ⟨[], 1, 0, [.dir [] 100000000000], false⟩,
    .ok ⟨⟨1, 2, 0o755, 100, 0⟩, .directory⟩, 200000000000, rfl, ?_, rfl, ?_⟩
  · rw [WalkRootCapped, if_neg (by decide), if_neg (by decide), if_neg (by decide)]
    exact (if_pos rfl).mpr rfl
  · rw [build, sortRecords_eq (.refl _) (List.pairwise_singleton ..)]
    rfl

/-- Wherever the symlink leads, the root validates. -/
lemma gitLinkIndex_validates (resolves : Bool) : gitLinkIndex.Validates (gitLinkRoot resolves)
    (ascii ['/', 'r']) ⟨[.dir [] 100000000000], [], 1, 0⟩ := by
  refine ⟨rfl, 2, ?_⟩
  rw [probeAll_eq]
  cases resolves <;> rfl

/-- On the way to the root nothing changes when the `.git` link resolves. -/
lemma gitLinkRoot_unchanged (resolves : Bool) (q : List Bytes) (hq : q <+: components []) :
    (gitLinkRoot false).Unchanged (gitLinkRoot resolves) q := by
  rw [List.prefix_nil.mp (show q <+: [] from hq)]
  exact linkRoot_unchanged _ _ _ _

/-- While the symlink leads nowhere, the root is no repository. -/
theorem validated_dir_iff_sample : ∃ fresh : RootListing,
    WalkRootCapped (fun _ _ => false) (fun _ => false) (gitLinkRoot false).host (ascii ['/', 'r'])
      ⟨2, [], .openScan, false⟩ (.ok fresh) ∧ Tree.printed [] ∉ fresh.arena := by
  have hfresh : WalkRootCapped (fun _ _ => false) (fun _ => false) (gitLinkRoot false).host
      (ascii ['/', 'r']) ⟨2, [], .openScan, false⟩ (.ok ⟨[], 1, 0, [], false⟩) := by
    rw [WalkRootCapped, if_neg (by decide), if_neg (by decide), if_neg (by decide)]
    exact (if_pos rfl).mpr rfl
  refine ⟨_, hfresh, (validated_dir_iff gitLinkIndex_builtFrom (gitLinkIndex_validates false)
    (List.mem_singleton_self _) (fun q _ hq _ => gitLinkRoot_unchanged false q hq) rfl hfresh).mpr
    (.inl ?_)⟩
  rintro ⟨_, _, _, _, resolve, stat, -, hlink, hstat⟩
  obtain ⟨-, rfl⟩ := Node.link.inj (Option.some.inj (show some (Node.link _ _) = _ from hlink))
  cases hstat

/-- When the symlink leads somewhere again, the root is a repository, and validates as the directory
it was. -/
theorem validated_dir_becomes_repo : ∃ (outcome : Outcome) (fresh : RootListing),
    gitLinkIndex.BuiltFrom (fun _ _ => false) (gitLinkRoot false) (ascii ['/', 'r']) ∧
    gitLinkIndex.Validates (gitLinkRoot true) (ascii ['/', 'r']) outcome ∧
    Record.dir [] 100000000000 ∈ outcome.fresh ∧
    (∀ q, q <+: components [] → (gitLinkRoot false).Unchanged (gitLinkRoot true) q) ∧
    WalkRootCapped (fun _ _ => false) (fun _ => false) (gitLinkRoot true).host (ascii ['/', 'r'])
      ⟨2, [], .openScan, false⟩ (.ok fresh) ∧ Tree.printed [] ∈ fresh.arena := by
  have hfresh : WalkRootCapped (fun _ _ => false) (fun _ => false) (gitLinkRoot true).host
      (ascii ['/', 'r']) ⟨2, [], .openScan, false⟩ (.ok ⟨[dot], 1, 0, [], false⟩) := by
    rw [WalkRootCapped, if_neg (by decide), if_neg (by decide), if_neg (by decide)]
    exact (if_pos rfl).mpr rfl
  exact ⟨_, _, gitLinkIndex_builtFrom, gitLinkIndex_validates true, List.mem_singleton_self _,
    gitLinkRoot_unchanged true, hfresh, List.mem_singleton_self _⟩

/-! ## Validated repositories -/

/-- What still stands of a repository that was recorded below an unchanged directory: if it is a
symlink, that it leads to a directory; if it is a directory that cannot be opened, that its name
ends in `.git` or it is spared. -/
def Tree.StillStands (t : Tree) (spared : Bytes → Bool) (p : List Bytes) : Prop :=
  (∀ attr resolve, t.root.at? p = some (.link attr resolve) → t.leadsToDir (render p) = true) ∧
    (t.IsDir p → ¬Tree.BareName p → t.opens (render p) = false → spared (render p) = true)

/-- What was a repository of a walk was a directory or a symlink that was not excluded and whose
type was known. -/
lemma known_of_verdict {p : List Bytes} {attr : Attr} {r x : Bool}
    {entries : List (Bytes × Bool × Node)} {e : Bytes × Bool × Node}
    (hat : before.root.at? p = some (.dir attr r x entries)) (he : e ∈ entries)
    (h : before.verdict wildmatch exclude (render p) x e = .emitted ∨
      before.verdict wildmatch exclude (render p) x e = .entered ∨
      before.verdict wildmatch exclude (render p) x e = .barred) :
    (e.2.1 = true ∨ x = true) ∧ isExcluded wildmatch exclude (joinRel (render p) e.1) = false ∧
      (e.2.2.fileType = .directory ∨ e.2.2.fileType = .symlink) := by
  have hdir : before.IsDir (p ++ [e.1]) → e.2.2.fileType = .directory := by
    rw [Tree.isDir_entry_iff hat he]
    rintro ⟨_, _, _, _, hnode⟩
    rw [hnode]
    rfl
  rcases h with h | h | h
  · obtain ⟨hknown, hkept, ⟨hself, -⟩ | ⟨⟨⟨_, _, hlink⟩, -⟩, -⟩⟩ :=
        (Tree.verdict_emitted_iff hat he).mp h
    · exact ⟨hknown, hkept, .inl (hdir hself)⟩
    · rw [Tree.at?_entry hat he, Option.some.injEq] at hlink
      exact ⟨hknown, hkept, .inr (by rw [hlink]; rfl)⟩
  · obtain ⟨hself, hopens, hkept, -⟩ := (Tree.verdict_entered_iff hat he).mp h
    exact ⟨.inr (Tree.searchable_of_opens hat he hopens), hkept, .inl (hdir hself)⟩
  · obtain ⟨hself, hknown, -, hkept, -⟩ := (Tree.verdict_barred_iff hat he).mp h
    exact ⟨hknown, hkept, .inl (hdir hself)⟩

/-- What becomes of an entry that still is a repository by its name or its `.git`, in a directory
that is read. -/
lemma verdict_iff_stillStands {p : List Bytes} {attr : Attr} {r x : Bool}
    {entries : List (Bytes × Bool × Node)} {e : Bytes × Bool × Node}
    (hat : now.root.at? p = some (.dir attr r x entries)) (he : e ∈ entries)
    (hknown : e.2.1 = true ∨ x = true)
    (hkept : isExcluded wildmatch exclude (joinRel (render p) e.1) = false)
    (hkind : e.2.2.fileType = .directory ∨ e.2.2.fileType = .symlink)
    (hstill : now.IsRepo (p ++ [e.1])) :
    (now.verdict wildmatch exclude (render p) x e = .emitted ∨
      now.verdict wildmatch exclude (render p) x e = .entered ∧
        now.inside (joinRel (render p) e.1) = true ∨
      now.verdict wildmatch exclude (render p) x e = .barred ∧
        now.hasGit (joinRel (render p) e.1) = true ∧ spared (joinRel (render p) e.1) = true) ↔
      now.StillStands spared (p ++ [e.1]) := by
  have hchild := Tree.at?_entry hat he
  rw [Tree.verdict_emitted_iff hat he, Tree.verdict_entered_iff hat he,
    Tree.verdict_barred_iff hat he, Tree.StillStands, render_append_singleton]
  rcases hkind with hdir | hlink
  · have hself : now.IsDir (p ++ [e.1]) := Tree.isDir_iff.mpr ⟨_, hchild, hdir⟩
    have hnolink : ∀ attr resolve, now.root.at? (p ++ [e.1]) ≠ some (.link attr resolve) := by
      intro attr resolve hlink
      rw [hchild, Option.some.injEq] at hlink
      rw [hlink] at hdir
      cases hdir
    by_cases hsuffix : dotGit <:+ e.1
    · exact iff_of_true (.inl ⟨hknown, hkept, .inl ⟨hself, hsuffix⟩⟩)
        ⟨fun _ _ hlink => absurd hlink (hnolink _ _), fun _ hplain =>
          absurd (Tree.bareName_append_singleton.mpr hsuffix) hplain⟩
    · have hplain : ¬Tree.BareName (p ++ [e.1]) := mt Tree.bareName_append_singleton.mp hsuffix
      have hgit : now.hasGit (joinRel (render p) e.1) = true := by
        rw [← render_append_singleton]
        exact hstill.resolve_left hplain
      cases hopens : now.opens (joinRel (render p) e.1) with
      | true =>
        have hinside : now.inside (joinRel (render p) e.1) = true := by
          obtain ⟨attr', r', x', entries', hat'⟩ := Tree.exists_dir_of_opens hopens
          exact Tree.inside_of_hasGit hat' hgit
        exact iff_of_true (.inr (.inl ⟨⟨hself, rfl, hkept, hsuffix⟩, hinside⟩))
          ⟨fun _ _ hlink => absurd hlink (hnolink _ _), nofun⟩
      | false =>
        constructor
        · rintro (⟨-, -, ⟨-, hbare⟩ | ⟨⟨⟨_, _, hlink⟩, -⟩, -⟩⟩ | ⟨⟨-, hopen, -⟩, -⟩ |
            ⟨-, -, hspared⟩)
          · exact absurd hbare hsuffix
          · exact absurd hlink (hnolink _ _)
          · cases hopen
          · exact ⟨fun _ _ hlink => absurd hlink (hnolink _ _), fun _ _ _ => hspared⟩
        · rintro ⟨-, hspared⟩
          exact .inr (.inr ⟨⟨hself, hknown, rfl, hkept, hsuffix⟩, hgit, hspared hself hplain rfl⟩)
  · obtain ⟨linkAttr, resolve, hnode⟩ := Node.exists_link_of_fileType hlink
    have hnodir : ¬now.IsDir (p ++ [e.1]) := by
      rw [Tree.isDir_entry_iff hat he, hnode]
      simp
    rw [hnode] at hchild
    constructor
    · rintro (⟨-, -, ⟨hself, -⟩ | ⟨⟨-, hleads⟩, -⟩⟩ | ⟨⟨hself, -⟩, -⟩ | ⟨⟨hself, -⟩, -⟩)
      · exact absurd hself hnodir
      · rw [render_append_singleton] at hleads
        exact ⟨fun _ _ _ => hleads, fun hself => absurd hself hnodir⟩
      · exact absurd hself hnodir
      · exact absurd hself hnodir
    · rintro ⟨hleads, -⟩
      refine .inl ⟨hknown, hkept, .inr ⟨⟨⟨_, _, hchild⟩, ?_⟩, hstill⟩⟩
      rw [render_append_singleton]
      exact hleads _ _ hchild

/-- A root that is still a repository is one to a fresh walk if it can be walked. -/
lemma root_mem_arena_iff (hnul : 0 ∉ root) (hopens : now.opens [] = true)
    (hrepo : isBareRoot root = true ∨ now.hasGit [] = true) {opts : WalkOptions}
    {full : Bytes → Bool}
    {fresh : RootListing} (hfresh : WalkRootCapped wildmatch full now.host root opts (.ok fresh)) :
    Tree.printed [] ∈ fresh.arena ↔ rootIsWalkable now.host = true := by
  cases hwalkable : rootIsWalkable now.host with
  | false =>
    have hempty := hfresh.eq_of_not_walkable wildmatch hnul hwalkable
    obtain rfl : fresh = Out.new := by simpa using hempty
    simp [Out.new]
  | true =>
    refine iff_of_true ?_ rfl
    cases hbare : isBareRoot root with
    | true =>
      obtain rfl : fresh = Out.emit opts.record [] := by
        simpa using hfresh.eq_of_isBareRoot wildmatch hnul hwalkable hbare
      exact List.mem_singleton_self _
    | false =>
      obtain ⟨listing, hok, hreports⟩ := hfresh.reports ⟨hnul, hwalkable, hbare, hopens⟩
      obtain rfl : fresh = listing := by simpa using hok
      obtain ⟨attr, r, x, entries, hat⟩ := Tree.exists_dir_of_opens hopens
      have hinside := Tree.inside_of_hasGit hat (hrepo.resolve_left (by simp [hbare]))
      exact (hreports.mem_arena_iff hopens validPath_nil).mpr
        ((Tree.repo_mem_found_iff_of_opens hopens ⟨attr, r, x, entries, hat⟩ hopens
          Tree.not_bareName_nil).mpr ⟨Tree.reads_nil hopens, hinside⟩)

/-- A repository below unchanged directories is one to a fresh walk if it still stands and no `.git`
above it is a symlink that resolves now. -/
lemma repo_mem_found_iff_of_unchanged {spared' : Bytes → Bool} {p : List Bytes} {name : Bytes}
    (hroot : before.opens [] = true) (hvalid : ValidPath (p ++ [name]))
    (hsame : ∀ q, q <+: p → before.Unchanged now q)
    (hrecord : Finding.repo (render (p ++ [name])) ∈ before.found wildmatch exclude spared [[]])
    (hstill : now.IsRepo (p ++ [name])) :
    Finding.repo (render (p ++ [name])) ∈ now.found wildmatch exclude spared' [[]] ↔
      (∀ q, q <+: p → ¬now.GitLink q) ∧ now.StillStands spared' (p ++ [name]) := by
  obtain ⟨attr, attr', r, x, entries, entries', hat, hat', -, hperm⟩ := hsame p (List.prefix_refl p)
  obtain ⟨path, n, hn, hrel⟩ := Tree.exists_node_of_mem_found hroot hrecord
  obtain rfl := render_injective hvalid (Tree.validPath hn) hrel
  obtain ⟨e, he, hename, -⟩ := Tree.exists_entry hat hn
  obtain ⟨e', he', hname', htyped, htype⟩ := Tree.exists_of_entryTypes hperm he
  obtain rfl : name = e'.1 := hename.symm.trans hname'.symm
  rw [render_append_singleton] at hrecord ⊢
  rw [← hename] at hrecord
  obtain ⟨hreads, houtside, hverdict⟩ := (Tree.repo_mem_found_iff hroot hat he).mp hrecord
  obtain ⟨hknown, hkept, hkind⟩ := known_of_verdict hat he
    (hverdict.imp_right (Or.imp And.left And.left))
  rw [← htyped] at hknown
  rw [← hname'] at hkept
  rw [← htype] at hkind
  have hopens' := Tree.opens_of_unchanged hreads hsame
  rw [Tree.repo_mem_found_iff (Tree.opens_nil_of_unchanged hroot (hsame [] List.nil_prefix)) hat'
    he', verdict_iff_stillStands hat' he' hknown hkept hkind hstill, ← and_assoc,
    Tree.reads_iff_of_unchanged hreads hsame, Bool.eq_false_iff, Ne,
    Tree.inside_iff_gitLink (hsame p (List.prefix_refl p)) (hreads.opened p (List.prefix_refl p)).2
      hopens' houtside]
  refine and_congr_left fun _ => ⟨fun h q hq => ?_,
    fun h => ⟨fun q hq _ => h q hq, h p (List.prefix_refl p)⟩⟩
  rcases eq_or_ne q p with rfl | hne
  · exact h.2
  · exact h.1 q hq hne

/-- A validated repository, with everything above it unchanged since, is a repository to a fresh
walk if and only if the root can be walked, no `.git` above the repository is a symlink that
resolves now, and the repository still stands. -/
theorem validated_repo_iff (hbuilt : index.BuiltFrom wildmatch before root)
    (hvalidates : index.Validates now root outcome) {rel : Bytes}
    (hhit : Record.repo rel ∈ outcome.fresh)
    (hsame : ∀ q mtime, q <+: components rel → Record.dir (render q) mtime ∈ outcome.fresh →
      before.Unchanged now q)
    {opts : WalkOptions} (hexclude : opts.exclude = index.exclude) {full : Bytes → Bool}
    {fresh : RootListing} (hfresh : WalkRootCapped wildmatch full now.host root opts (.ok fresh)) :
    Tree.printed rel ∈ fresh.arena ↔ rootIsWalkable now.host = true ∧
      (∀ q, q <+: components rel → q ≠ components rel → ¬now.GitLink q) ∧
      now.StillStands (Tree.sparedBy opts.detect full) (components rel) := by
  have hopens : now.opens [] = true := by
    rw [Tree.opens, show now.root.openDir (components []) = .ok () from hvalidates.1]
    rfl
  -- Of the root, nothing but that it can be walked is in question.
  have hroot : (∀ q : List Bytes, q <+: [] → q ≠ [] → ¬now.GitLink q) ∧
      now.StillStands (Tree.sparedBy opts.detect full) [] :=
    ⟨fun q hq hne => absurd (List.prefix_nil.mp hq) hne,
      fun attr resolve hlink => absurd (by simpa using hlink) (now.resolved attr resolve),
      fun _ _ hclosed => absurd hopens (by simp [show now.opens [] = false from hclosed])⟩
  obtain ⟨hnul, ⟨hbare, hrepresents⟩ | ⟨hbare, spared, records, h⟩⟩ := hbuilt.cases
  · obtain rfl : rel = [] :=
      congrArg Record.rel ((hvalidates.of_bare hrepresents).1 _ hhit)
    rw [root_mem_arena_iff hnul hopens (.inl hbare) hfresh]
    exact (and_iff_left hroot).symm
  · obtain ⟨hmem, hholds, p, hp, hrel, habove⟩ := h.of_mem_fresh hvalidates hhit
    obtain rfl : rel = render p := hrel
    have hstill : now.IsRepo p := (holds_repo_iff hp (not_suffix_of_not_isBareRoot hbare)).mp hholds
    rw [components_render hp] at hsame ⊢
    rcases List.eq_nil_or_concat' p with rfl | ⟨p, name, rfl⟩
    · rw [render_nil, root_mem_arena_iff hnul hopens (.inr (hstill.resolve_left
        Tree.not_bareName_nil)) hfresh]
      exact (and_iff_left hroot).symm
    · have hunchanged : ∀ q, q <+: p → before.Unchanged now q := by
        intro q hq
        obtain ⟨mtime, hdir⟩ := habove q (hq.trans (List.prefix_append ..))
          (ne_append_singleton_of_isPrefix hq)
        exact hsame q mtime (hq.trans (List.prefix_append ..)) hdir
      have hinto := h.walksInto.of_unchanged (hunchanged [] List.nil_prefix)
      obtain ⟨listing, hok, hreports⟩ := hfresh.reports hinto
      obtain rfl : fresh = listing := by simpa using hok
      rw [hexclude] at hreports
      rw [hreports.mem_arena_iff hinto.opens hp,
        repo_mem_found_iff_of_unchanged h.walksInto.opens hp
        hunchanged (h.mem_found_of_repo hmem) hstill]
      constructor
      · rintro ⟨hlinks, hstands⟩
        exact ⟨hinto.walkable, fun q hq hne =>
          hlinks q ((List.prefix_concat_iff.mp hq).resolve_left hne), hstands⟩
      · rintro ⟨-, hlinks, hstands⟩
        exact ⟨fun q hq => hlinks q (hq.trans (List.prefix_append ..))
          (ne_append_singleton_of_isPrefix hq), hstands⟩

/-- The name `l.git`. -/
def bareLinkName : Bytes := ascii ['l', '.', 'g', 'i', 't']

/-- The root `/r` with a symlink `l.git`. -/
def bareLinkRoot (resolves : Bool) : Tree := linkRoot bareLinkName (by decide) resolves

/-- The index of that root while the symlink leads to a directory. -/
def bareLinkIndex : Index :=
  ⟨ascii ['/', 'r'], 1, 2, 200000000000, [],
    [⟨[], some 100000000000, [1]⟩, ⟨bareLinkName, none, []⟩]⟩

/-- The index of the other sample is built from its walk. -/
lemma bareLinkIndex_builtFrom :
    bareLinkIndex.BuiltFrom (fun _ _ => false) (bareLinkRoot true) (ascii ['/', 'r']) := by
  refine ⟨fun _ => false, ⟨2, [], .openScan, true⟩, ⟨[bareLinkName], 1, 0,
    [.dir [] 100000000000, .repo bareLinkName], false⟩, .ok ⟨⟨1, 2, 0o755, 100, 0⟩, .directory⟩,
    200000000000, rfl, ?_, rfl, ?_⟩
  · rw [WalkRootCapped, if_neg (by decide), if_neg (by decide), if_neg (by decide)]
    exact (if_pos rfl).mpr rfl
  · rw [build, sortRecords_eq (.refl _) (by decide)]
    rfl

/-- Wherever the symlink leads, the entry `l.git` validates. -/
lemma bareLinkIndex_validates (resolves : Bool) : bareLinkIndex.Validates (bareLinkRoot resolves)
    (ascii ['/', 'r']) ⟨[.dir [] 100000000000, .repo bareLinkName], [], 2, 0⟩ := by
  refine ⟨rfl, 2, ?_⟩
  rw [probeAll_eq]
  cases resolves <;> rfl

/-- On the way to the link nothing changes when it no longer resolves. -/
lemma bareLinkRoot_unchanged (resolves : Bool) (q : List Bytes) (mtime : Int64)
    (hq : q <+: components bareLinkName)
    (hdir : Record.dir (render q) mtime ∈
      [Record.dir [] 100000000000, Record.repo bareLinkName]) :
    (bareLinkRoot true).Unchanged (bareLinkRoot resolves) q := by
  rcases List.prefix_concat_iff.mp (show q <+: [] ++ [bareLinkName] from hq) with rfl | hq
  · rcases List.mem_cons.mp hdir with heq | hmem
    · exact absurd (show render [bareLinkName] = [] from congrArg Record.rel heq) (by decide)
    · exact absurd (congrArg Record.mtimeNs (List.mem_singleton.mp hmem))
        (by simp [Record.dir, Record.repo])
  · rw [List.prefix_nil.mp hq]
    exact linkRoot_unchanged _ _ _ _

/-- While the symlink leads to a directory, it is a repository to a fresh walk. -/
theorem validated_repo_iff_sample : ∃ fresh : RootListing,
    WalkRootCapped (fun _ _ => false) (fun _ => false) (bareLinkRoot true).host (ascii ['/', 'r'])
      ⟨2, [], .openScan, false⟩ (.ok fresh) ∧ Tree.printed bareLinkName ∈ fresh.arena := by
  have hfresh : WalkRootCapped (fun _ _ => false) (fun _ => false) (bareLinkRoot true).host
      (ascii ['/', 'r']) ⟨2, [], .openScan, false⟩ (.ok ⟨[bareLinkName], 1, 0, [], false⟩) := by
    rw [WalkRootCapped, if_neg (by decide), if_neg (by decide), if_neg (by decide)]
    exact (if_pos rfl).mpr rfl
  refine ⟨_, hfresh, (validated_repo_iff bareLinkIndex_builtFrom (bareLinkIndex_validates true)
    (by simp) (bareLinkRoot_unchanged true) rfl hfresh).mpr ⟨by decide, fun q hq hne => ?_, ?_, ?_⟩⟩
  · rcases List.prefix_concat_iff.mp (show q <+: [] ++ [bareLinkName] from hq) with rfl | hq
    · exact absurd rfl hne
    · rw [List.prefix_nil.mp hq]
      rintro ⟨_, _, _, _, _, _, -, hlink, -⟩
      cases (show none = some _ from hlink)
  · exact fun _ _ _ => by decide
  · rintro ⟨_, _, _, _, hdir⟩
    cases hdir

/-- When the symlink leads nowhere, it is no repository to a fresh walk, and validates as the
repository it was. -/
theorem validated_repo_vanishes : ∃ (outcome : Outcome) (fresh : RootListing),
    bareLinkIndex.BuiltFrom (fun _ _ => false) (bareLinkRoot true) (ascii ['/', 'r']) ∧
    bareLinkIndex.Validates (bareLinkRoot false) (ascii ['/', 'r']) outcome ∧
    Record.repo bareLinkName ∈ outcome.fresh ∧
    (∀ q mtime, q <+: components bareLinkName → Record.dir (render q) mtime ∈ outcome.fresh →
      (bareLinkRoot true).Unchanged (bareLinkRoot false) q) ∧
    WalkRootCapped (fun _ _ => false) (fun _ => false) (bareLinkRoot false).host (ascii ['/', 'r'])
      ⟨2, [], .openScan, false⟩ (.ok fresh) ∧ Tree.printed bareLinkName ∉ fresh.arena := by
  have hfresh : WalkRootCapped (fun _ _ => false) (fun _ => false) (bareLinkRoot false).host
      (ascii ['/', 'r']) ⟨2, [], .openScan, false⟩ (.ok ⟨[], 1, 0, [], false⟩) := by
    rw [WalkRootCapped, if_neg (by decide), if_neg (by decide), if_neg (by decide)]
    exact (if_pos rfl).mpr rfl
  exact ⟨_, _, bareLinkIndex_builtFrom, bareLinkIndex_validates false, by simp,
    bareLinkRoot_unchanged false, hfresh, List.not_mem_nil⟩

end Scap
