import Scap.Index.Later

/-!
# Re-walking what did not validate

A path that the pass hands back is walked again by itself, from its own name on, while a walk of the
whole root judges it from its parent.  In a later tree without symlinks, nothing but permissions can
come between the two: the entries of the directories above are unchanged (`Index.Recalls.leads`).
The re-walk has the answer of the walk at and beneath the path exactly under the condition
`Tree.RewalksAlike` (`rewalk_eq_walk_beneath_iff`).
-/

namespace Scap

variable {wildmatch : Bytes → Bytes → Bool} {before now : Tree} {root : Bytes} {index : Index}
  {exclude : List Bytes} {spared : Bytes → Bool} {records : List Record} {outcome : Outcome}

/-! ## What is above a path that was handed back -/

/-- Nothing in the object is a symlink. -/
def Node.LinkFree (n : Node) : Prop := ∀ p attr resolve, n.at? p ≠ some (.link attr resolve)

/-- Nothing in the tree is a symlink. -/
def Tree.LinkFree (t : Tree) : Prop := t.root.LinkFree

/-- A directory whose entries have no links has none. -/
lemma Node.LinkFree.dir {attr : Attr} {r x : Bool} {entries : List (Bytes × Bool × Node)}
    (h : ∀ e ∈ entries, e.2.2.LinkFree) : (Node.dir attr r x entries).LinkFree := by
  intro p attr' resolve hat
  cases p with
  | nil => simp at hat
  | cons name p =>
    obtain ⟨m, hm, hat⟩ := Option.bind_eq_some_iff.mp hat
    obtain ⟨e, he, -, rfl⟩ := exists_mem_of_lookup hm
    exact h e he p attr' resolve hat

/-- What became of the entry of a path that was handed back: it was a directory, not excluded and
not named `*.git`, in a directory that could be searched. -/
lemma Index.Recalls.entry_of_stale (h : index.Recalls wildmatch before root spared records)
    (hbare : isBareRoot root = false) (hlinks : now.LinkFree) {p : List Bytes} {name : Bytes}
    (hp : ValidPath (p ++ [name])) (hsame : before.SameEntries now p) {record : Record}
    (hrecord : record ∈ records) (hrel : record.rel = render (p ++ [name]))
    (hnot : record.holds now.sys ((fileName root).getD []) index.writtenNs = false) :
    ∃ attr r entries, before.root.at? p = some (.dir attr r true entries) ∧
      before.IsDir (p ++ [name]) ∧
      isExcluded wildmatch index.exclude (render (p ++ [name])) = false ∧ ¬dotGit <:+ name := by
  obtain ⟨attr, r, x, entries, attr', r', x', entries', hat, hat', hperm⟩ := hsame
  cases hmtime : record.mtimeNs with
  | some mtime =>
    obtain rfl : record = .dir (render (p ++ [name])) mtime := by
      rw [← hrel, Record.dir, ← hmtime]
    obtain ⟨hreads, -, -⟩ := h.reads_of_dir hrecord
    rw [components_render hp] at hreads
    obtain ⟨hparent, -, hdir, hopens, hkept, hplain⟩ := Tree.reads_append_singleton.mp hreads
    obtain ⟨_, _, _, _, hchild⟩ := id hdir
    obtain ⟨e, he, rfl, -⟩ := Tree.exists_entry hat hchild
    rw [render_append_singleton] at hopens
    obtain rfl := Tree.searchable_of_opens hat he hopens
    exact ⟨attr, r, entries, hat, hdir, hkept, hplain⟩
  | none =>
    obtain rfl : record = .repo (render (p ++ [name])) := by
      rw [← hrel, Record.repo, ← hmtime]
    have hrepo : ¬now.IsRepo (p ++ [name]) := fun hrepo => by
      rw [(holds_repo_iff hp (not_suffix_of_not_isBareRoot hbare)).mpr hrepo] at hnot
      cases hnot
    have hfound := h.mem_found_of_repo hrecord
    obtain ⟨path, n, hn, hpath⟩ := Tree.exists_node_of_mem_found h.walksInto.opens hfound
    obtain rfl := render_injective hp (Tree.validPath hn) hpath
    obtain ⟨e, he, rfl, -⟩ := Tree.exists_entry hat hn
    rw [render_append_singleton] at hfound ⊢
    obtain ⟨-, -, hemitted | ⟨hentered, -⟩ | ⟨hbarred, hgit, -⟩⟩ :=
      (Tree.repo_mem_found_iff h.walksInto.opens hat he).mp hfound
    · obtain ⟨-, -, ⟨-, hsuffix⟩ | ⟨⟨⟨_, _, hlink⟩, -⟩, -⟩⟩ :=
          (Tree.verdict_emitted_iff hat he).mp hemitted
      · exact absurd (.inl (Tree.bareName_append_singleton.mpr hsuffix)) hrepo
      · -- A symlink that kept its type would be one now.
        obtain ⟨e', he', hname', -, htype⟩ := Tree.exists_of_entryTypes hperm he
        rw [Tree.at?_entry hat he, Option.some.injEq] at hlink
        rw [hlink] at htype
        obtain ⟨_, _, hnode⟩ := Node.exists_link_of_fileType htype
        exact absurd ((Tree.at?_entry hat' he').trans (congrArg some hnode)) (hlinks _ _ _)
    · obtain ⟨hdir, hopens, hkept, hplain⟩ := (Tree.verdict_entered_iff hat he).mp hentered
      obtain rfl := Tree.searchable_of_opens hat he hopens
      exact ⟨attr, r, entries, hat, hdir, hkept, hplain⟩
    · obtain ⟨hdir, -, -, hkept, hplain⟩ := (Tree.verdict_barred_iff hat he).mp hbarred
      obtain rfl := Tree.searchable_of_hasGit hat he hgit
      exact ⟨attr, r, entries, hat, hdir, hkept, hplain⟩

/-- A directory that was read and searched and was no repository is none now, if it kept its entries
and nothing is a symlink. -/
lemma Tree.inside_of_sameEntries (hlinks : now.LinkFree) {p : List Bytes}
    (hsame : before.SameEntries now p) (hreads : before.Reads wildmatch exclude p)
    (houtside : before.inside (render p) = false) {attr : Attr} {r : Bool}
    {entries : List (Bytes × Bool × Node)}
    (hat : before.root.at? p = some (.dir attr r true entries)) :
    now.inside (render p) = false := by
  obtain ⟨_, _, _, _, attr', r', x', entries', hat₀, hat', hperm⟩ := hsame
  obtain ⟨-, -, -, rfl⟩ : _ ∧ _ ∧ _ ∧ entries = _ := by simpa using hat.symm.trans hat₀
  have hcat := Tree.at?_render hat
  have hcat' := Tree.at?_render hat'
  have hopens := (hreads.opened p (List.prefix_refl p)).2
  rw [inside_eq hcat, hasGit_eq hcat, passable_of_opens hcat hopens] at houtside
  rw [inside_eq hcat']
  cases hfind : entries'.find? fun e => e.1 = dotGit with
  | none => rfl
  | some e' =>
    -- A `.git` that is there now was there before, no symlink then either, and would have statted.
    have he' := List.mem_of_find?_eq_some hfind
    have hname' : e'.1 = dotGit := by simpa using List.find?_some hfind
    obtain ⟨e, he, hname, -, htype⟩ := exists_of_entryTypes hperm.symm he'
    have hplain : e.2.2.fileType ≠ .symlink := by
      rw [htype]
      intro hlink
      obtain ⟨_, _, hnode⟩ := Node.exists_link_of_fileType hlink
      exact hlinks _ _ _ ((at?_entry hat' he').trans (congrArg some hnode))
    have hfind₀ := find?_eq_some_of_mem (before.distinct _ _ _ _ _ hat) he
    rw [hname, hname'] at hfind₀
    have hlookup : Node.lookup entries dotGit = some e.2.2 := by rw [Node.lookup, hfind₀]; rfl
    rw [hfind₀, hlookup, Option.map_some, Option.getD_some,
      Node.find_nil_of_fileType hplain] at houtside
    simp [succeeds, Except.toBool] at houtside

/-- A directory in which another one was read could be searched. -/
lemma Tree.Reads.searchable {t : Tree} {p : List Bytes} {name : Bytes}
    (h : t.Reads wildmatch exclude (p ++ [name])) :
    ∃ attr r entries, t.root.at? p = some (.dir attr r true entries) := by
  obtain ⟨hparent, -, ⟨_, _, _, _, hchild⟩, hopens, -, -⟩ := reads_append_singleton.mp h
  obtain ⟨attr, r, x, entries, hat⟩ := (hparent.opened p (List.prefix_refl p)).1
  obtain ⟨e, he, rfl, -⟩ := exists_entry hat hchild
  rw [render_append_singleton] at hopens
  obtain rfl := searchable_of_opens hat he hopens
  exact ⟨attr, r, entries, hat⟩

/-- What a later tree without symlinks has above a path that is handed back, and at it. -/
structure Tree.Leads (wildmatch : Bytes → Bytes → Bool) (exclude : List Bytes) (t : Tree)
    (p : List Bytes) (name : Bytes) : Prop where
  dir : t.IsDir (p ++ [name])
  kept : isExcluded wildmatch exclude (render (p ++ [name])) = false
  plain : ¬dotGit <:+ name
  outside : t.inside (render p) = false
  /-- The directory above is read if it and all above it can be opened. -/
  reads : (∀ q, q <+: p → t.opens (render q) = true) → t.Reads wildmatch exclude p

/-- Nothing but the permissions of the directories above keeps a walk from a path that is handed
back. -/
lemma Index.Recalls.leads (h : index.Recalls wildmatch before root spared records)
    (hbare : isBareRoot root = false) (hvalidates : index.Validates now root outcome)
    (hlinks : now.LinkFree) {p : List Bytes} {name : Bytes} (hp : ValidPath (p ++ [name]))
    (hstale : render (p ++ [name]) ∈ outcome.stale)
    (hsame : ∀ q mtime, q <+: p ++ [name] → Record.dir (render q) mtime ∈ outcome.fresh →
      before.SameEntries now q) : now.Leads wildmatch index.exclude p name := by
  obtain ⟨record, hrecord, hrel, hnot, p', hp', heq, habove⟩ := h.of_mem_stale hvalidates hstale
  obtain rfl := render_injective hp hp' heq
  have hne : ∀ q, q <+: p → q ≠ p ++ [name] := fun q hq => ne_append_singleton_of_isPrefix hq
  have hpre : ∀ q, q <+: p → q <+: p ++ [name] := fun q hq => hq.trans (List.prefix_append ..)
  have hkept : ∀ q, q <+: p → before.SameEntries now q ∧
      before.Reads wildmatch index.exclude q ∧ before.inside (render q) = false := by
    intro q hq
    obtain ⟨mtime, hfresh⟩ := habove q (hpre q hq) (hne q hq)
    obtain ⟨hmem, -⟩ := h.of_mem_fresh hvalidates hfresh
    obtain ⟨hreads, -, houtside⟩ := h.reads_of_dir hmem
    rw [components_render (hp.of_prefix (hpre q hq))] at hreads
    exact ⟨hsame q mtime (hpre q hq) hfresh, hreads, houtside⟩
  obtain ⟨hsame_p, hreads, houtside⟩ := hkept p (List.prefix_refl p)
  obtain ⟨attr, r, entries, hat, hdir, hnotExcluded, hplain⟩ :=
    h.entry_of_stale hbare hlinks hp hsame_p hrecord hrel hnot
  have hinside : ∀ q, q <+: p → now.inside (render q) = false := by
    intro q hq
    obtain ⟨hsame_q, hreads_q, houtside_q⟩ := hkept q hq
    rcases eq_or_ne q p with rfl | hqp
    · exact Tree.inside_of_sameEntries hlinks hsame_q hreads_q houtside_q hat
    · obtain ⟨rest, rfl⟩ := hq
      obtain ⟨first, rest, rfl⟩ := List.exists_cons_of_ne_nil (l := rest) (by
        rintro rfl
        exact hqp (List.append_nil q).symm)
      have hbelow : q ++ [first] <+: q ++ first :: rest := ⟨rest, by simp⟩
      obtain ⟨_, _, _, hat_q⟩ := (hreads.of_prefix hbelow).searchable
      exact Tree.inside_of_sameEntries hlinks hsame_q hreads_q houtside_q hat_q
  refine ⟨?_, hnotExcluded, hplain, hinside p (List.prefix_refl p), fun hopened => ?_⟩
  · -- The entry kept its type.
    obtain ⟨_, _, _, _, attr', r', x', entries', hat₀, hat', hperm⟩ := hsame_p
    obtain ⟨-, -, -, rfl⟩ : _ ∧ _ ∧ _ ∧ entries = _ := by simpa using hat.symm.trans hat₀
    obtain ⟨_, _, _, _, hchild⟩ := hdir
    obtain ⟨e, he, rfl, hnode⟩ := Tree.exists_entry hat hchild
    obtain ⟨e', he', hname', -, htype⟩ := Tree.exists_of_entryTypes hperm he
    rw [Tree.IsDir, ← hname', Tree.at?_entry hat' he']
    rw [hnode] at htype
    exact Node.exists_dir_of_fileType htype
  · refine ⟨fun q hq => ⟨?_, hopened q hq⟩, hreads.kept, hreads.plain, fun q hq _ => hinside q hq⟩
    obtain ⟨_, _, _, _, attr', r', x', entries', -, hat', -⟩ := (hkept q hq).1
    exact ⟨attr', r', x', entries', hat'⟩

/-! ## The same answer beneath a path -/

/-- A re-walk of a path has the answer of a walk of the root, which came upon `found`, at and
beneath the path: it emits and records the same, and is incomplete exactly if something was dropped
there. -/
structure Out.Rewalks (rewalked walked : RootListing) (found : Multiset Finding) (rel : Bytes) :
    Prop where
  arena : rewalked.arena.Perm (walked.arena.filter fun path => Tree.Beneath (components rel) path)
  records : rewalked.records.Perm
    (walked.records.filter fun record => Tree.Beneath (components rel) record.rel)
  incomplete : rewalked.incomplete = true ↔
    ∃ path, Tree.Beneath (components rel) path ∧ Finding.dropped path ∈ found

/-- A path is beneath another one below the root exactly when what is printed for it is. -/
lemma Tree.beneath_printed_iff {s p : List Bytes} (hs : ValidPath s) (hne : s ≠ []) :
    Beneath s (printed (render p)) ↔ Beneath s (render p) := by
  unfold printed
  split_ifs with hempty
  · rw [List.isEmpty_iff.mp hempty]
    constructor
    · intro h
      obtain ⟨name, s, rfl⟩ := List.exists_cons_of_ne_nil hne
      obtain ⟨rfl, -⟩ := List.cons_prefix_cons.mp (show name :: s <+: [dot] from h)
      exact absurd rfl (hs dot List.mem_cons_self).ne_dot
    · exact fun h => absurd (List.prefix_nil.mp h) hne
  · exact Iff.rfl

/-- What is said of some findings, of those that are chosen. -/
lemma filter_filterMap_of_forall {α β : Type} {f : α → Option β} {P : β → Prop} [DecidablePred P]
    {Q : α → Prop} [DecidablePred Q] {found : Multiset α}
    (h : ∀ a ∈ found, ∀ b, f a = some b → (P b ↔ Q a)) :
    (found.filterMap f).filter P = (found.filter Q).filterMap f := by
  induction found using Multiset.induction_on with
  | empty => rfl
  | cons a found ih =>
    have hrest := ih fun b hb => h b (Multiset.mem_cons_of_mem hb)
    have ha := h a (Multiset.mem_cons_self a found)
    cases hfa : f a with
    | none =>
      rw [Multiset.filterMap_cons_none _ _ hfa, hrest]
      by_cases hQ : Q a
      · rw [Multiset.filter_cons_of_pos _ hQ, Multiset.filterMap_cons_none _ _ hfa]
      · rw [Multiset.filter_cons_of_neg _ hQ]
    | some b =>
      rw [Multiset.filterMap_cons_some _ _ _ hfa]
      by_cases hQ : Q a
      · rw [Multiset.filter_cons_of_pos _ ((ha b hfa).mpr hQ), Multiset.filter_cons_of_pos _ hQ,
          Multiset.filterMap_cons_some _ _ _ hfa, hrest]
      · rw [Multiset.filter_cons_of_neg _ fun hP => hQ ((ha b hfa).mp hP),
          Multiset.filter_cons_of_neg _ hQ, hrest]

section Answer

variable {walked rewalked : RootListing} {recorded : Bool} {found found' : Multiset Finding}
  {s : List Bytes}

/-- A re-walk that came upon what the walk came upon beneath the path has the same answer there. -/
lemma Out.Reports.rewalks (hs : ValidPath s) (hne : s ≠ [])
    (hpaths : ∀ f ∈ found, ∃ p, f.rel = render p) (hwalked : walked.Reports recorded found)
    (hrewalked : rewalked.Reports recorded (found.filter fun f => Tree.Beneath s f.rel)) :
    rewalked.Rewalks walked found (render s) := by
  have hcomponents : components (render s) = s := components_render hs
  refine ⟨?_, ?_, ?_⟩ <;> rw [hcomponents]
  · rw [← Multiset.coe_eq_coe, ← Multiset.filter_coe, hrewalked.arena, hwalked.arena]
    refine (filter_filterMap_of_forall fun f hf path hpath => ?_).symm
    obtain ⟨p, hp⟩ := hpaths f hf
    cases f with
    | repo rel =>
      obtain rfl : rel = render p := hp
      obtain rfl := Option.some.inj hpath
      exact Tree.beneath_printed_iff hs hne
    | _ => cases hpath
  · rw [← Multiset.coe_eq_coe, ← Multiset.filter_coe, hrewalked.records, hwalked.records]
    cases recorded with
    | false => rfl
    | true =>
      refine (filter_filterMap_of_forall fun f hf record hrecord => ?_).symm
      rw [Finding.rel_of_record? hrecord]
  · rw [hrewalked.incomplete]
    refine exists_congr fun path => ?_
    rw [Multiset.mem_filter, and_comm]
    rfl

/-- A re-walk with the same answer came upon the same repositories and directories. -/
lemma Out.Rewalks.mem_iff (hs : ValidPath s) (h : rewalked.Rewalks walked found (render s))
    (hwalked : walked.Reports true found) (hrewalked : rewalked.Reports true found') {f : Finding}
    (hrecord : f.record?.isSome) :
    f ∈ found' ↔ f ∈ found ∧ Tree.Beneath s f.rel := by
  have hmem : ∀ {listing : RootListing} {found : Multiset Finding} {record : Record},
      listing.Reports true found → f.record? = some record →
      (record ∈ listing.records ↔ f ∈ found) := by
    intro listing found record hreports hrec
    rw [← Multiset.mem_coe, hreports.records, if_pos rfl, Multiset.mem_filterMap]
    constructor
    · rintro ⟨g, hg, hgrec⟩
      obtain rfl : g = f := by cases g <;> cases f <;> cases hgrec <;> cases hrec <;> rfl
      exact hg
    · exact fun hf => ⟨f, hf, hrec⟩
  obtain ⟨record, hrec⟩ := Option.isSome_iff_exists.mp hrecord
  have hrecords := h.records.mem_iff (a := record)
  rw [components_render hs, List.mem_filter, decide_eq_true_iff, hmem hrewalked hrec,
    hmem hwalked hrec, Finding.rel_of_record? hrec] at hrecords
  exact hrecords

end Answer

/-! ## Re-walking a path -/

namespace Tree

/-- What a walk comes upon that opens the root, and finds it walkable or not. -/
noncomputable def walked (wildmatch : Bytes → Bytes → Bool) (exclude : List Bytes) (t : Tree)
    (spared : Bytes → Bool) : Multiset Finding :=
  if rootIsWalkable t.host then t.found wildmatch exclude spared [[]] else 0

/-- What a re-walk of a directory comes upon. -/
noncomputable def rewalked (wildmatch : Bytes → Bytes → Bool) (exclude : List Bytes) (t : Tree)
    (spared : Bytes → Bool) (rel : Bytes) : Multiset Finding :=
  t.worth wildmatch exclude spared ⟨false, rel⟩

/-- When a re-walk of a directory, with the budget `full'`, has the answer of a walk of the root,
with the budget `full`. -/
structure RewalksAlike (wildmatch : Bytes → Bytes → Bool) (opts : WalkOptions)
    (full full' : Bytes → Bool) (t : Tree) (s : List Bytes) : Prop where
  /-- The root passes the check that only the walk makes. -/
  walkable : rootIsWalkable t.host = true
  /-- The directories above, which the re-walk need not open, can be opened. -/
  above : ∀ q, q <+: s → q ≠ s → t.opens (render q) = true
  /-- The directory's type is reported, or can be asked for. -/
  known : ∀ q attr r entries name n, s = q ++ [name] →
    t.root.at? q = some (.dir attr r false entries) → (name, false, n) ∉ entries
  /-- It can be opened, or is no repository, or the walk gives up on it as the re-walk does. -/
  itself : t.opens (render s) = true ∨ t.hasGit (render s) = false ∨
    opts.detect = .openScan ∧ full (render s) = true
  /-- Where the budget makes a difference, it is used up for both or for neither. -/
  budget : opts.detect = .statFirst ∨ ∀ p name, s <+: p → t.Trap wildmatch opts.exclude p name →
    full (render (p ++ [name])) = full' (render (p ++ [name]))

variable {t : Tree} {opts : WalkOptions} {full full' : Bytes → Bool} {p : List Bytes} {name : Bytes}

/-- A re-walk comes upon the path itself. -/
lemma exists_mem_rewalked (hdir : t.IsDir p) : ∃ f ∈ t.rewalked wildmatch exclude spared (render p),
    f.record?.isSome ∨ f = .dropped (render p) := by
  obtain ⟨attr, r, x, entries, hat⟩ := hdir
  unfold rewalked worth
  split_ifs
  · have hself : ∃ f ∈ t.ownFound wildmatch exclude spared (render p), f.record?.isSome := by
      rw [ownFound_eq hat]
      split_ifs
      · exact ⟨_, List.mem_singleton_self _, rfl⟩
      · exact ⟨_, List.mem_cons_self, rfl⟩
    obtain ⟨f, hf, hrecord⟩ := hself
    refine ⟨f, ?_, .inl hrecord⟩
    rw [found_singleton, Multiset.mem_add]
    exact .inl hf
  · exact ⟨_, Multiset.mem_singleton_self _, .inr rfl⟩

/-- Under the condition, a re-walk comes upon what the walk comes upon beneath the path. -/
theorem RewalksAlike.found_eq (h : t.RewalksAlike wildmatch opts full full' (p ++ [name]))
    (hleads : t.Leads wildmatch opts.exclude p name) :
    (t.walked wildmatch opts.exclude (sparedBy opts.detect full)).filter
        (fun f => Beneath (p ++ [name]) f.rel) =
      t.rewalked wildmatch opts.exclude (sparedBy opts.detect full') (render (p ++ [name])) := by
  have hp : t.Reads wildmatch opts.exclude p := hleads.reads fun q hq =>
    h.above q (hq.trans (List.prefix_append ..)) (ne_append_singleton_of_isPrefix hq)
  rw [walked, if_pos h.walkable, rewalked, worth]
  cases hopens : t.opens (render (p ++ [name])) with
  | true =>
    have hs : t.Reads wildmatch opts.exclude (p ++ [name]) := reads_append_singleton.mpr
      ⟨hp, hleads.outside, hleads.dir, hopens, hleads.kept, hleads.plain⟩
    rw [if_pos rfl, found_beneath_of_reads hs]
    refine found_congr hs fun q child hq htrap => ?_
    rcases h.budget with hfirst | hsame
    · simp [sparedBy, hfirst]
    · rw [sparedBy, sparedBy, hsame q child hq htrap]
  | false =>
    have hnot : ¬t.Reads wildmatch opts.exclude (p ++ [name]) := fun hs => by
      rw [(hs.opened _ (List.prefix_refl _)).2] at hopens
      cases hopens
    obtain ⟨attr, r, x, entries, hat⟩ := (hp.opened p (List.prefix_refl p)).1
    obtain ⟨_, _, _, _, hchild⟩ := id hleads.dir
    obtain ⟨e, he, rfl, -⟩ := exists_entry hat hchild
    have hknown : e.2.1 = true ∨ x = true := by
      cases htyped : e.2.1 with
      | true => exact .inl rfl
      | false =>
        cases x with
        | true => exact .inr rfl
        | false =>
          refine absurd he ?_
          rw [show e = (e.1, false, e.2.2) by rw [← htyped]]
          exact h.known p attr r entries e.1 e.2.2 rfl hat
    have hkept := hleads.kept
    have hself := h.itself
    rw [found_beneath_of_not_entered hp hleads.outside hat he hnot]
    rw [hopens] at hself
    rw [render_append_singleton] at hopens hkept hself ⊢
    have hverdict := (verdict_barred_iff hat he).mpr
      ⟨hleads.dir, hknown, hopens, hkept, hleads.plain⟩
    rw [entFound, hverdict]
    rcases hself with hself | hgit | ⟨hscan, hfull⟩
    · cases hself
    · simp [hgit]
    · simp [sparedBy, hscan, hfull]

/-- A path is a repository to the walk or the re-walk if one comes upon it beneath the path. -/
lemma repo_iff_of_rewalks {walked rewalked : RootListing} {found found' : Multiset Finding}
    {s : List Bytes} (hs : ValidPath s) (h : rewalked.Rewalks walked found (render s))
    (hwalked : walked.Reports true found) (hrewalked : rewalked.Reports true found')
    {q : List Bytes} (hq : ValidPath q) (hbeneath : s <+: q) :
    Finding.repo (render q) ∈ found' ↔ Finding.repo (render q) ∈ found := by
  rw [h.mem_iff hs hwalked hrewalked rfl]
  exact and_iff_left ((beneath_render_iff hq).mpr hbeneath)

/-- The walk comes upon something beneath the path, since the re-walk does. -/
lemma beneath_ne_zero_of_rewalks {walked rewalked : RootListing} {found : Multiset Finding}
    {spared : Bytes → Bool} {s : List Bytes} (hdir : t.IsDir s)
    (hwalked : walked.Reports true found)
    (hrewalked : rewalked.Reports true (t.rewalked wildmatch opts.exclude spared (render s)))
    (h : rewalked.Rewalks walked found (render s)) :
    found.filter (fun f => Beneath s f.rel) ≠ 0 := by
  have hs : ValidPath s := hdir.validPath
  intro hzero
  have hnone : ∀ f ∈ found, ¬Beneath s f.rel := Multiset.filter_eq_nil.mp hzero
  have hself : ∃ f ∈ t.rewalked wildmatch opts.exclude spared (render s),
      f.record?.isSome ∨ f = .dropped (render s) := exists_mem_rewalked hdir
  obtain ⟨f, hf, hrecord | rfl⟩ := hself
  · obtain ⟨hfound, hbeneath⟩ := (h.mem_iff hs hwalked hrewalked hrecord).mp hf
    exact hnone f hfound hbeneath
  · obtain ⟨path, hbeneath, hdropped⟩ := h.incomplete.mp (hrewalked.incomplete.mpr ⟨_, hf⟩)
    rw [components_render hs] at hbeneath
    exact hnone _ hdropped hbeneath

/-- A re-walk has the same answer only under the condition. -/
theorem RewalksAlike.of_rewalks (hroot : t.opens [] = true)
    (hleads : t.Leads wildmatch opts.exclude p name) {walked rewalked : RootListing}
    (hwalked : walked.Reports true
      (t.walked wildmatch opts.exclude (sparedBy opts.detect full)))
    (hrewalked : rewalked.Reports true
      (t.rewalked wildmatch opts.exclude (sparedBy opts.detect full') (render (p ++ [name]))))
    (h : rewalked.Rewalks walked (t.walked wildmatch opts.exclude (sparedBy opts.detect full))
      (render (p ++ [name]))) : t.RewalksAlike wildmatch opts full full' (p ++ [name]) := by
  have hs : ValidPath (p ++ [name]) := hleads.dir.validPath
  have hsome := beneath_ne_zero_of_rewalks hleads.dir hwalked hrewalked h
  have hwalkable : rootIsWalkable t.host = true := by
    by_contra hnot
    rw [Tree.walked, if_neg hnot] at hsome
    exact hsome rfl
  rw [Tree.walked, if_pos hwalkable] at hwalked hsome h
  have hp : t.Reads wildmatch opts.exclude p := by
    by_contra hnot
    exact hsome (found_beneath_of_not_reads hroot name hnot)
  have hrepo : ∀ {q : List Bytes}, ValidPath q → p ++ [name] <+: q →
      (Finding.repo (render q) ∈ t.rewalked wildmatch opts.exclude (sparedBy opts.detect full')
          (render (p ++ [name])) ↔
        Finding.repo (render q) ∈
          t.found wildmatch opts.exclude (sparedBy opts.detect full) [[]]) :=
    fun hq hbeneath => repo_iff_of_rewalks hs h hwalked hrewalked hq hbeneath
  refine ⟨hwalkable, fun q hq hne => ?_, ?_, ?_, ?_⟩
  · rcases List.prefix_concat_iff.mp hq with rfl | hq
    · exact absurd rfl hne
    · exact (hp.opened q hq).2
  · -- Of an entry whose type is not found out nothing is said.
    rintro q attr r entries name' n hsplit hat hentry
    obtain ⟨rfl, hname⟩ := List.append_inj' hsplit rfl
    obtain rfl : name = name' := by simpa using hname
    have hnot : ¬t.Reads wildmatch opts.exclude (p ++ [name]) := fun hreads => by
      obtain ⟨_, _, _, hat'⟩ := hreads.searchable
      simpa using hat.symm.trans hat'
    have hignored : t.entFound wildmatch opts.exclude (sparedBy opts.detect full) (render p) false
        (name, false, n) = [] := by simp [entFound, verdict]
    exact hsome ((found_beneath_of_not_entered hp hleads.outside hat hentry hnot).trans
      (congrArg _ hignored))
  · cases hopens : t.opens (render (p ++ [name])) with
    | true => exact .inl rfl
    | false =>
      cases hgit : t.hasGit (render (p ++ [name])) with
      | false => exact .inr (.inl rfl)
      | true =>
        have htrap : t.Trap wildmatch opts.exclude p name :=
          ⟨hp, hleads.outside, hleads.dir, hleads.kept, hleads.plain, hopens, hgit⟩
        have hspared : ¬sparedBy opts.detect full (render (p ++ [name])) = true := fun hspared => by
          have hmem := (hrepo hs (List.prefix_refl _)).mpr (htrap.repo_mem_found_iff.mpr hspared)
          rw [Tree.rewalked, worth, hopens, if_neg Bool.false_ne_true,
            Multiset.mem_singleton] at hmem
          cases hmem
        refine .inr (.inr ?_)
        cases hdetect : opts.detect with
        | openScan => exact ⟨rfl, by simpa [sparedBy, hdetect] using hspared⟩
        | statFirst => exact absurd (by simp [sparedBy, hdetect]) hspared
  · cases hdetect : opts.detect with
    | statFirst => exact .inl rfl
    | openScan =>
      refine .inr fun q child hq htrap => ?_
      have hreads := htrap.parent.of_prefix hq
      have hvalid : ValidPath (q ++ [child]) := htrap.dir.validPath
      have hbeneath : p ++ [name] <+: q ++ [child] := hq.trans (List.prefix_append ..)
      have hrel : Beneath (p ++ [name]) (Finding.repo (render (q ++ [child]))).rel :=
        (beneath_render_iff hvalid).mpr hbeneath
      have hsame := hrepo hvalid hbeneath
      rw [Tree.rewalked, worth, (hreads.opened _ (List.prefix_refl _)).2, if_pos rfl,
        ← found_beneath_of_reads hreads, Multiset.mem_filter, and_iff_left hrel,
        htrap.repo_mem_found_iff, htrap.repo_mem_found_iff] at hsame
      simpa [sparedBy, hdetect] using hsame.symm

end Tree

/-- A walk that opens the root reports what it comes upon. -/
lemma WalkRootCapped.reports_walked {t : Tree} {opts : WalkOptions} {full : Bytes → Bool}
    {result : Except WalkError RootListing} (hnul : 0 ∉ root) (hbare : isBareRoot root = false)
    (hopens : t.opens [] = true) (h : WalkRootCapped wildmatch full t.host root opts result) :
    ∃ listing, result = .ok listing ∧ listing.Reports opts.record
      (t.walked wildmatch opts.exclude (Tree.sparedBy opts.detect full)) := by
  unfold Tree.walked
  split_ifs with hwalkable
  · exact h.reports ⟨hnul, hwalkable, hbare, hopens⟩
  · exact ⟨Out.new, h.eq_of_not_walkable wildmatch hnul (by simpa using hwalkable), .new⟩

/-- Re-walking a path that the pass hands back, the root apart, has the answer of a walk of the
later tree at and beneath it if and only if the root is walkable, all directories above can be
opened, the type of the path can be found out, it can be opened unless it is no repository, and the
budget makes no difference beneath it. -/
theorem rewalk_eq_walk_beneath_iff (hbuilt : index.BuiltFrom wildmatch before root)
    (hvalidates : index.Validates now root outcome) (hlinks : now.LinkFree) {rel : Bytes}
    (hstale : rel ∈ outcome.stale) (hne : rel ≠ [])
    (hsame : ∀ q mtime, q <+: components rel → Record.dir (render q) mtime ∈ outcome.fresh →
      before.SameEntries now q)
    {opts : WalkOptions} (hexclude : opts.exclude = index.exclude) (hrecord : opts.record = true)
    {full full' : Bytes → Bool} {threads : ℕ} {result result' : Except WalkError RootListing}
    (hwalk : WalkRootCapped wildmatch full now.host root opts result)
    (hrewalk : WalkSubtreesCapped wildmatch full' now.host root [rel]
      { opts with threads := threads } result') :
    ∃ walked rewalked, result = .ok walked ∧ result' = .ok rewalked ∧
      walked.Reports true (now.walked wildmatch opts.exclude (Tree.sparedBy opts.detect full)) ∧
      (rewalked.Rewalks walked
          (now.walked wildmatch opts.exclude (Tree.sparedBy opts.detect full)) rel ↔
        now.RewalksAlike wildmatch opts full full' (components rel)) := by
  obtain ⟨hnul, ⟨-, hbareIndex⟩ | ⟨hbare, spared, records, h⟩⟩ := hbuilt.cases
  · exact absurd ((hvalidates.of_bare hbareIndex).2 _ hstale) hne
  · obtain ⟨_, _, _, _, s, hs, rfl, -⟩ := h.of_mem_stale hvalidates hstale
    have hnil : s ≠ [] := by
      rintro rfl
      exact hne render_nil
    obtain ⟨p, name, rfl⟩ := (List.eq_nil_or_concat' s).resolve_left hnil
    rw [components_render hs] at hsame ⊢
    have hleads := h.leads hbare hvalidates hlinks hs hstale hsame
    rw [← hexclude] at hleads
    have hopens : now.opens [] = true := by
      rw [Tree.opens, show now.root.openDir (components []) = .ok () from hvalidates.1]
      rfl
    obtain ⟨walked, rfl, hwalked⟩ := hwalk.reports_walked hnul hbare hopens
    obtain ⟨rewalked, rfl, hrewalked⟩ := hrewalk.reports hnul hopens fun rel hrel => by
      obtain rfl := List.mem_singleton.mp hrel
      rw [components_render hs]
      exact hleads.dir
    rw [List.map_singleton, List.sum_singleton] at hrewalked
    rw [hrecord] at hwalked hrewalked
    refine ⟨walked, rewalked, rfl, rfl, hwalked, fun hsameAnswer => ?_, fun halike => ?_⟩
    · exact .of_rewalks hopens hleads hwalked hrewalked hsameAnswer
    · refine Out.Reports.rewalks hs hnil (fun f hf => ?_) hwalked ?_
      · rw [Tree.walked, if_pos halike.walkable] at hf
        obtain ⟨q, -, hrel⟩ := Tree.exists_path_of_mem_found hopens hf
        exact ⟨q, hrel⟩
      · rw [halike.found_eq hleads]
        exact hrewalked

/-- The root `/r` with a directory `a`. -/
def oneDirRoot (attr : Attr) (readable : Bool) (entries : List (Bytes × Bool × Node))
    (h : (Node.dir attr readable true entries).Named) : Tree :=
  .ofDir ⟨1, 2, 0o755, 100, 0⟩ true true [(ascii ['a'], true, .dir attr readable true entries)]
    (.dir (List.nodup_singleton _) (by simpa using ⟨by decide, h⟩))

/-- While `a` is empty. -/
def emptyDirRoot : Tree :=
  oneDirRoot ⟨1, 3, 0o755, 100, 0⟩ true [] (.dir List.nodup_nil (by simp))

/-- When `a` holds a `.git`, and may be closed. -/
def gitDirRoot (readable : Bool) : Tree :=
  oneDirRoot ⟨1, 3, if readable then 0o755 else 0o111, 300, 0⟩ readable
    [(dotGit, true, .emptyDir ⟨1, 4, 0o755, 300, 0⟩)]
    (.dir (List.nodup_singleton _) (by simpa using ⟨by decide, .emptyDir _⟩))

/-- The index of the root while `a` is empty. -/
def emptyDirIndex : Index :=
  ⟨ascii ['/', 'r'], 1, 2, 200000000000, [],
    [⟨[], some 100000000000, [1]⟩, ⟨ascii ['a'], some 100000000000, []⟩]⟩

/-- The index of the sample is built from its walk. -/
lemma emptyDirIndex_builtFrom :
    emptyDirIndex.BuiltFrom (fun _ _ => false) emptyDirRoot (ascii ['/', 'r']) := by
  obtain ⟨result, hwalk⟩ := WalkRootCapped.exists_tree (fun _ _ => false) emptyDirRoot
    (ascii ['/', 'r']) ⟨2, [], .openScan, true⟩ fun _ => false
  obtain ⟨listing, rfl, hreports⟩ := hwalk.reports (by decide)
  have hfound :
      emptyDirRoot.found (fun _ _ => false) [] (Tree.sparedBy .openScan fun _ => false) [[]] =
      ([.dir [] 100000000000, .dir (ascii ['a']) 100000000000] : List Finding) := by
    have hentered : emptyDirRoot.entered (fun _ _ => false) [] [] = [ascii ['a']] := rfl
    have hleaf : emptyDirRoot.entered (fun _ _ => false) [] (ascii ['a']) = [] := rfl
    rw [Tree.found_singleton, hentered, Tree.found_singleton, hleaf, Tree.found_nil]
    rfl
  rw [hfound] at hreports
  have hrecords : listing.records.Perm [.dir [] 100000000000, .dir (ascii ['a']) 100000000000] :=
    Multiset.coe_eq_coe.mp hreports.records
  have hcomplete : listing.incomplete = false := by
    rw [Bool.eq_false_iff, Ne, hreports.incomplete]
    simp
  refine ⟨fun _ => false, ⟨2, [], .openScan, true⟩, listing,
    .ok ⟨⟨1, 2, 0o755, 100, 0⟩, .directory⟩, 200000000000, rfl, hwalk, hcomplete, ?_⟩
  rw [build, sortRecords_eq hrecords (by decide)]
  rfl

/-- When `a` holds a `.git`, its entry is handed back. -/
lemma emptyDirIndex_validates (readable : Bool) : emptyDirIndex.Validates (gitDirRoot readable)
    (ascii ['/', 'r']) ⟨[.dir [] 100000000000], [ascii ['a']], 1, 0⟩ := by
  refine ⟨rfl, 2, ?_⟩
  rw [probeAll_eq]
  cases readable <;> rfl

/-- The sample has no links. -/
lemma gitDirRoot_linkFree (readable : Bool) : (gitDirRoot readable).LinkFree := by
  refine .dir ?_
  simp only [List.forall_mem_singleton]
  refine .dir ?_
  simp only [List.forall_mem_singleton]
  exact .dir (by simp)

/-- The root of the sample has the same entries after it gets a `.git`. -/
lemma gitDirRoot_sameEntries (readable : Bool) (q : List Bytes) (mtime : Int64)
    (hdir : Record.dir (render q) mtime ∈ [Record.dir [] 100000000000]) (hq : ValidPath q) :
    emptyDirRoot.SameEntries (gitDirRoot readable) q := by
  obtain rfl : q = [] := render_injective hq validPath_nil
    (congrArg Record.rel (List.mem_singleton.mp hdir))
  exact ⟨_, _, _, _, _, _, _, _, rfl, rfl, .refl _⟩

/-- While `a` can be opened, the re-walk finds the repository that the walk finds. -/
theorem rewalk_eq_walk_beneath_iff_sample : ∃ walked rewalked : RootListing,
    WalkRootCapped (fun _ _ => false) (fun _ => false) (gitDirRoot true).host (ascii ['/', 'r'])
      ⟨2, [], .statFirst, true⟩ (.ok walked) ∧
    WalkSubtreesCapped (fun _ _ => false) (fun _ => false) (gitDirRoot true).host (ascii ['/', 'r'])
      [ascii ['a']] ⟨4, [], .statFirst, true⟩ (.ok rewalked) ∧
    rewalked.Rewalks walked ((gitDirRoot true).walked (fun _ _ => false) []
      (Tree.sparedBy .statFirst fun _ => false)) (ascii ['a']) := by
  obtain ⟨result, hwalk⟩ := WalkRootCapped.exists_tree (fun _ _ => false) (gitDirRoot true)
    (ascii ['/', 'r']) ⟨2, [], .statFirst, true⟩ fun _ => false
  obtain ⟨result', hrewalk⟩ := WalkSubtreesCapped.exists_tree (fun _ _ => false) (gitDirRoot true)
    (ascii ['/', 'r']) [ascii ['a']] ⟨4, [], .statFirst, true⟩ fun _ => false
  have hvalid : ValidPath [ascii ['a']] := validPath_singleton.mpr (by decide)
  obtain ⟨walked, rewalked, rfl, rfl, -, hiff⟩ := rewalk_eq_walk_beneath_iff
    emptyDirIndex_builtFrom (emptyDirIndex_validates true) (gitDirRoot_linkFree true)
    (List.mem_singleton_self _) (by decide)
    (fun q mtime hq hdir => gitDirRoot_sameEntries true q mtime hdir (hvalid.of_prefix hq))
    rfl rfl hwalk hrewalk
  refine ⟨walked, rewalked, hwalk, hrewalk, hiff.mpr ⟨by decide, fun q hq hne => ?_, ?_,
    .inl (by decide), .inl rfl⟩⟩
  · rcases List.prefix_concat_iff.mp (show q <+: [] ++ [ascii ['a']] from hq) with rfl | hq
    · exact absurd rfl hne
    · rw [List.prefix_nil.mp hq]
      decide
  · rintro q attr r entries name n hsplit hat -
    obtain rfl : q = [] := by
      have hlength := congrArg List.length (show [ascii ['a']] = q ++ [name] from hsplit)
      exact List.eq_nil_of_length_eq_zero (by simpa using hlength.symm)
    cases hat

/-- When `a` has become a repository that cannot be read, the walk of the root lists it, and the
re-walk drops it. -/
theorem rewalk_drops_repo : ∃ (outcome : Outcome) (walked rewalked : RootListing),
    emptyDirIndex.BuiltFrom (fun _ _ => false) emptyDirRoot (ascii ['/', 'r']) ∧
    emptyDirIndex.Validates (gitDirRoot false) (ascii ['/', 'r']) outcome ∧
    (gitDirRoot false).LinkFree ∧ ascii ['a'] ∈ outcome.stale ∧
    (∀ q mtime, q <+: components (ascii ['a']) → Record.dir (render q) mtime ∈ outcome.fresh →
      emptyDirRoot.SameEntries (gitDirRoot false) q) ∧
    WalkRootCapped (fun _ _ => false) (fun _ => false) (gitDirRoot false).host (ascii ['/', 'r'])
      ⟨2, [], .statFirst, true⟩ (.ok walked) ∧
    WalkSubtreesCapped (fun _ _ => false) (fun _ => false) (gitDirRoot false).host
      (ascii ['/', 'r']) [ascii ['a']] ⟨2, [], .statFirst, true⟩ (.ok rewalked) ∧
    walked.arena = [ascii ['a']] ∧ walked.incomplete = false ∧
    rewalked.arena = [] ∧ rewalked.incomplete = true := by
  have hvalid : ValidPath [ascii ['a']] := validPath_singleton.mpr (by decide)
  have hwalk : WalkRootCapped (fun _ _ => false) (fun _ => false) (gitDirRoot false).host
      (ascii ['/', 'r']) ⟨2, [], .statFirst, true⟩ (.ok ⟨[ascii ['a']], 1, 0,
        [.dir [] 100000000000, .repo (ascii ['a'])], false⟩) := by
    rw [WalkRootCapped, if_neg (by decide), if_neg (by decide), if_neg (by decide)]
    exact (if_pos rfl).mpr rfl
  obtain ⟨result, hrewalk⟩ := WalkSubtreesCapped.exists_tree (fun _ _ => false) (gitDirRoot false)
    (ascii ['/', 'r']) [ascii ['a']] ⟨2, [], .statFirst, true⟩ fun _ => false
  obtain ⟨rewalked, rfl, hreports⟩ := hrewalk.reports (by decide) (by decide) fun rel hrel => by
    obtain rfl := List.mem_singleton.mp hrel
    exact ⟨_, _, _, _, rfl⟩
  have hclosed : (gitDirRoot false).opens (ascii ['a']) = false := by decide
  rw [List.map_singleton, List.sum_singleton, if_neg (by simp [hclosed])] at hreports
  refine ⟨_, _, rewalked, emptyDirIndex_builtFrom, emptyDirIndex_validates false,
    gitDirRoot_linkFree false, List.mem_singleton_self _,
    fun q mtime hq hdir => gitDirRoot_sameEntries false q mtime hdir (hvalid.of_prefix hq), hwalk,
    hrewalk, rfl, rfl, ?_, hreports.incomplete.mpr ⟨_, Multiset.mem_singleton_self _⟩⟩
  exact (Multiset.coe_eq_zero _).mp hreports.arena

end Scap
