import Scap.Walk.Findings

/-!
# The strategies and the budget

Which directories a walk reads in any tree (`Tree.Reads`), and what becomes of a path below them
(`repo_mem_found_iff`).  Neither depends on the detection strategy or on the descriptor budget, and
from this follow the two comparisons of walks: the strategies are interchangeable as long as the
budget lasts (`strategies_agree`), and the budget never changes the answer except at a directory
that cannot be opened and whose `.git` stats (`budget_agrees_iff`).
-/

namespace Scap

variable {wildmatch : Bytes → Bytes → Bool} {exclude : List Bytes} {t : Tree}
    {spared : Bytes → Bool}

/-! ## Which directories are read -/

namespace Tree

/-- The directories a walk of the root reads: they and all above them can be opened, are not
excluded and not named `*.git`, and none above them is a repository. -/
structure Reads (wildmatch : Bytes → Bytes → Bool) (exclude : List Bytes) (t : Tree)
    (p : List Bytes) : Prop where
  opened : ∀ q, q <+: p → t.IsDir q ∧ t.opens (render q) = true
  kept : ∀ q, q <+: p → q ≠ [] → isExcluded wildmatch exclude (render q) = false
  plain : ∀ q, q <+: p → ¬BareName q
  outside : ∀ q, q <+: p → q ≠ p → t.inside (render q) = false

/-- Only a directory can be opened. -/
lemma exists_dir_of_opens {rel : Bytes} (h : t.opens rel = true) :
    ∃ attr r x entries, t.root.at? (components rel) = some (.dir attr r x entries) := by
  have hdir : ∀ (p : List Bytes) (n : Node), n.openDir p = .ok () →
      ∃ attr r x entries, n.at? p = some (.dir attr r x entries) := by
    intro p
    induction p with
    | nil =>
      intro n hn
      cases n with
      | dir attr r x entries => exact ⟨attr, r, x, entries, rfl⟩
      | _ => simp [Node.openDir] at hn
    | cons name p ih =>
      intro n hn
      cases n with
      | dir attr r x entries =>
        cases x with
        | false => simp [Node.openDir] at hn
        | true =>
          cases hlookup : Node.lookup entries name with
          | none => simp [Node.openDir, hlookup] at hn
          | some m =>
            simp only [Node.openDir, hlookup, Bool.not_true, Bool.false_eq_true, if_false] at hn
            simpa [Node.at?, hlookup] using ih m hn
      | _ => simp [Node.openDir] at hn
  refine hdir _ _ ?_
  cases hopen : t.root.openDir (components rel) with
  | ok => rfl
  | error err => simp [opens, hopen, succeeds, Except.toBool] at h

/-- A root that can be opened is read. -/
lemma reads_nil (h : t.opens [] = true) : t.Reads wildmatch exclude [] := by
  have hdir : t.IsDir [] := exists_dir_of_opens h
  refine ⟨fun q hq => ?_, fun q hq hne => ?_, fun q hq => ?_, fun q hq hne => ?_⟩ <;>
    obtain rfl := List.prefix_nil.mp hq
  · exact ⟨hdir, h⟩
  · exact absurd rfl hne
  · exact not_bareName_nil
  · exact absurd rfl hne

/-- A directory that is read has a valid path. -/
lemma Reads.validPath {p : List Bytes} (h : t.Reads wildmatch exclude p) : ValidPath p :=
  (h.opened p (List.prefix_refl p)).1.validPath

/-- A directory is read through its parent. -/
lemma reads_append_singleton {p : List Bytes} {name : Bytes} :
    t.Reads wildmatch exclude (p ++ [name]) ↔ t.Reads wildmatch exclude p ∧
      t.inside (render p) = false ∧ t.IsDir (p ++ [name]) ∧ t.opens (render (p ++ [name])) = true ∧
      isExcluded wildmatch exclude (render (p ++ [name])) = false ∧ ¬dotGit <:+ name := by
  have hne : p ≠ p ++ [name] := by simp
  have hpre : ∀ {q}, q <+: p → q <+: p ++ [name] := fun hq => hq.trans (List.prefix_append ..)
  have hself : p ++ [name] <+: p ++ [name] := List.prefix_refl _
  constructor
  · intro h
    refine ⟨⟨fun q hq => h.opened q (hpre hq), fun q hq => h.kept q (hpre hq),
      fun q hq => h.plain q (hpre hq), fun q hq hqp => h.outside q (hpre hq) ?_⟩,
      h.outside p (List.prefix_append ..) hne, (h.opened _ hself).1, (h.opened _ hself).2,
      h.kept _ hself (by simp), fun hsuffix => h.plain _ hself
        (bareName_append_singleton.mpr hsuffix)⟩
    exact ne_append_singleton_of_isPrefix hq
  · rintro ⟨hp, houtside, hdir, hopens, hkept, hplain⟩
    refine ⟨fun q hq => ?_, fun q hq hqn => ?_, fun q hq => ?_, fun q hq hqp => ?_⟩ <;>
      rcases List.prefix_concat_iff.mp hq with rfl | hq
    · exact ⟨hdir, hopens⟩
    · exact hp.opened q hq
    · exact hkept
    · exact hp.kept q hq hqn
    · exact fun hbare => hplain (bareName_append_singleton.mp hbare)
    · exact hp.plain q hq
    · exact absurd rfl hqp
    · rcases eq_or_ne q p with rfl | hqp'
      · exact houtside
      · exact hp.outside q hq hqp'

section Entries

variable {p : List Bytes} {name : Bytes} {attr : Attr} {r x : Bool}
  {entries : List (Bytes × Bool × Node)} {e : Bytes × Bool × Node}

/-- Below a directory without the search bit nothing can be opened. -/
lemma searchable_of_opens (hat : t.root.at? p = some (.dir attr r x entries)) (he : e ∈ entries)
    (hopens : t.opens (joinRel (render p) e.1) = true) : x = true := by
  have hvalid := t.valid p attr r x entries hat e he
  rw [opens, components_joinRel hvalid, components_render (Tree.validPath hat),
    Node.openDir_append hat] at hopens
  cases x with
  | true => rfl
  | false => split_ifs at hopens <;> simp [Node.openDir, succeeds, Except.toBool] at hopens

/-- Nothing stats below a directory without the search bit. -/
lemma searchable_of_hasGit (hat : t.root.at? p = some (.dir attr r x entries)) (he : e ∈ entries)
    (hgit : t.hasGit (joinRel (render p) e.1) = true) : x = true := by
  have hvalid := t.valid p attr r x entries hat e he
  rw [hasGit, components_joinRel validName_dotGit, components_joinRel hvalid,
    components_render (Tree.validPath hat), List.append_assoc,
    Node.find_append true (Tree.validPath hat) hat] at hgit
  cases x with
  | true => rfl
  | false => split_ifs at hgit <;> simp [Node.find, succeeds, Except.toBool] at hgit

/-- An entry of a directory is a directory if its object is one. -/
lemma isDir_entry_iff (hat : t.root.at? p = some (.dir attr r x entries)) (he : e ∈ entries) :
    t.IsDir (p ++ [e.1]) ↔ ∃ attr' r' x' entries', e.2.2 = .dir attr' r' x' entries' := by
  rw [IsDir, at?_entry hat he]
  simp

/-- A type is known if `readdir` reports it or the directory can be searched. -/
lemma typeKnown_iff {typed searchable : Bool} :
    ¬(!typed && !searchable) = true ↔ typed = true ∨ searchable = true := by
  cases typed <;> simp

/-- The verdict on a directory whose type is known: its name decides, then whether it can be
opened. -/
lemma verdict_of_isDir (hat : t.root.at? p = some (.dir attr r x entries)) (he : e ∈ entries)
    (hdir : t.IsDir (p ++ [e.1])) :
    t.verdict wildmatch exclude (render p) x e =
      if !e.2.1 && !x then .ignored
      else if isExcluded wildmatch exclude (joinRel (render p) e.1) then .pruned
      else if dotGit <:+ e.1 then .emitted
      else if t.opens (joinRel (render p) e.1) then .entered
      else .barred := by
  obtain ⟨_, _, _, _, hnode⟩ := (isDir_entry_iff hat he).mp hdir
  rw [verdict, hnode]

/-- Nothing but directories is entered or cannot be opened. -/
lemma isDir_of_verdict (hat : t.root.at? p = some (.dir attr r x entries)) (he : e ∈ entries)
    (h : t.verdict wildmatch exclude (render p) x e = .entered ∨
      t.verdict wildmatch exclude (render p) x e = .barred) : t.IsDir (p ++ [e.1]) := by
  rw [isDir_entry_iff hat he]
  obtain ⟨name, typed, n⟩ := e
  cases n with
  | dir attr' r' x' entries' => exact ⟨attr', r', x', entries', rfl⟩
  | link attr' resolve =>
    unfold verdict at h
    split_ifs at h <;> simp at h
  | file attr' fileType plain =>
    unfold verdict at h
    split_ifs at h <;> simp at h

/-- The entries that are entered. -/
lemma verdict_entered_iff (hat : t.root.at? p = some (.dir attr r x entries)) (he : e ∈ entries) :
    t.verdict wildmatch exclude (render p) x e = .entered ↔ t.IsDir (p ++ [e.1]) ∧
      t.opens (joinRel (render p) e.1) = true ∧
      isExcluded wildmatch exclude (joinRel (render p) e.1) = false ∧ ¬dotGit <:+ e.1 := by
  constructor
  · intro h
    have hdir := isDir_of_verdict hat he (.inl h)
    rw [verdict_of_isDir hat he hdir] at h
    split_ifs at h with _ hexcluded hsuffix hopens
    exact ⟨hdir, hopens, by simpa using hexcluded, hsuffix⟩
  · rintro ⟨hdir, hopens, hkept, hplain⟩
    obtain rfl := searchable_of_opens hat he hopens
    rw [verdict_of_isDir hat he hdir, if_neg (by simp), if_neg (by simp [hkept]), if_neg hplain,
      if_pos hopens]

/-- The entries that cannot be opened. -/
lemma verdict_barred_iff (hat : t.root.at? p = some (.dir attr r x entries)) (he : e ∈ entries) :
    t.verdict wildmatch exclude (render p) x e = .barred ↔ t.IsDir (p ++ [e.1]) ∧
      (e.2.1 = true ∨ x = true) ∧ t.opens (joinRel (render p) e.1) = false ∧
      isExcluded wildmatch exclude (joinRel (render p) e.1) = false ∧ ¬dotGit <:+ e.1 := by
  constructor
  · intro h
    have hdir := isDir_of_verdict hat he (.inr h)
    rw [verdict_of_isDir hat he hdir] at h
    split_ifs at h with hunknown hexcluded hsuffix hopens
    exact ⟨hdir, typeKnown_iff.mp hunknown, by simpa using hopens, by simpa using hexcluded,
      hsuffix⟩
  · rintro ⟨hdir, hknown, hopens, hkept, hplain⟩
    rw [verdict_of_isDir hat he hdir, if_neg (typeKnown_iff.mpr hknown),
      if_neg (by simp [hkept]), if_neg hplain, if_neg (by simp [hopens])]

/-- The entries that are repositories by what is seen from above. -/
lemma verdict_emitted_iff (hat : t.root.at? p = some (.dir attr r x entries)) (he : e ∈ entries) :
    t.verdict wildmatch exclude (render p) x e = .emitted ↔ (e.2.1 = true ∨ x = true) ∧
      isExcluded wildmatch exclude (joinRel (render p) e.1) = false ∧
      (t.IsDir (p ++ [e.1]) ∧ dotGit <:+ e.1 ∨ t.IsDirLink (p ++ [e.1]) ∧
        t.IsRepo (p ++ [e.1])) := by
  rw [isDir_entry_iff hat he, IsDirLink, IsRepo, bareName_append_singleton, render_append_singleton,
    at?_entry hat he]
  obtain ⟨name, typed, n⟩ := e
  cases n with
  | dir attr' r' x' entries' =>
    constructor
    · intro h
      simp only [verdict] at h
      split_ifs at h with hunknown hexcluded hsuffix
      exact ⟨typeKnown_iff.mp hunknown, by simpa using hexcluded, .inl ⟨⟨_, _, _, _, rfl⟩, hsuffix⟩⟩
    · rintro ⟨hknown, hkept, ⟨-, hsuffix⟩ | ⟨⟨⟨_, _, hlink⟩, -⟩, -⟩⟩
      · simp only [verdict]
        rw [if_neg (typeKnown_iff.mpr hknown), if_neg (by simp [hkept]), if_pos hsuffix]
      · cases hlink
  | link attr' resolve =>
    constructor
    · intro h
      simp only [verdict] at h
      split_ifs at h with hunknown hexcluded hrepo
      exact ⟨typeKnown_iff.mp hunknown, by simpa using hexcluded,
        .inr ⟨⟨⟨attr', resolve, rfl⟩, hrepo.1⟩, hrepo.2⟩⟩
    · rintro ⟨hknown, hkept, ⟨⟨_, _, _, _, hdir⟩, -⟩ | ⟨⟨-, hleads⟩, hrepo⟩⟩
      · cases hdir
      · simp only [verdict]
        rw [if_neg (typeKnown_iff.mpr hknown), if_neg (by simp [hkept]), if_pos ⟨hleads, hrepo⟩]
  | file attr' fileType plain =>
    unfold verdict
    split_ifs <;> simp

end Entries

/-- Whatever lies above a directory that is read is read. -/
lemma Reads.of_prefix {p q : List Bytes} (h : t.Reads wildmatch exclude p) (hq : q <+: p) :
    t.Reads wildmatch exclude q where
  opened q' hq' := h.opened q' (hq'.trans hq)
  kept q' hq' := h.kept q' (hq'.trans hq)
  plain q' hq' := h.plain q' (hq'.trans hq)
  outside q' hq' hne := by
    refine h.outside q' (hq'.trans hq) ?_
    rintro rfl
    exact hne (hq'.eq_of_length_le hq.length_le)

/-- The directories entered one after the other from one that is read are those read beneath it. -/
lemma reached_from_iff {s : List Bytes} (hs : t.Reads wildmatch exclude s) {rel : Bytes} :
    Relation.ReflTransGen (fun a b => b ∈ t.entered wildmatch exclude a) (render s) rel ↔
      ∃ p, s <+: p ∧ t.Reads wildmatch exclude p ∧ rel = render p := by
  constructor
  · intro h
    induction h with
    | refl => exact ⟨s, List.prefix_refl s, hs, rfl⟩
    | tail _ hchild ih =>
      obtain ⟨p, hsp, hp, rfl⟩ := ih
      obtain ⟨attr, r, x, entries, hat, houtside, e, he, hverdict, rfl⟩ := mem_entered.mp hchild
      rw [components_render hp.validPath] at hat
      obtain ⟨hdir, hopens, hkept, hplain⟩ := (verdict_entered_iff hat he).mp hverdict
      refine ⟨p ++ [e.1], hsp.trans (List.prefix_append ..), reads_append_singleton.mpr ?_,
        (render_append_singleton ..).symm⟩
      rw [render_append_singleton]
      exact ⟨hp, houtside, hdir, hopens, hkept, hplain⟩
  · rintro ⟨p, hsp, hp, rfl⟩
    induction p using List.reverseRecOn with
    | nil =>
      obtain rfl := List.prefix_nil.mp hsp
      exact .refl
    | append_singleton p name ih =>
      rcases List.prefix_concat_iff.mp hsp with rfl | hsp
      · exact .refl
      · obtain ⟨hparent, houtside, hdir, hopens, hkept, hplain⟩ := reads_append_singleton.mp hp
        rw [render_append_singleton] at hopens hkept ⊢
        refine (ih hsp hparent).tail (mem_entered.mpr ?_)
        obtain ⟨attr, r, x, entries, hat⟩ := (hparent.opened p (List.prefix_refl p)).1
        obtain ⟨attr', r', x', entries', hchild⟩ := hdir
        obtain ⟨e, he, rfl, -⟩ := exists_entry hat hchild
        refine ⟨attr, r, x, entries, by rwa [components_render hparent.validPath], houtside, e, he,
          ?_, rfl⟩
        exact (verdict_entered_iff hat he).mpr ⟨⟨_, _, _, _, hchild⟩, hopens, hkept, hplain⟩

/-- What is come upon from a directory that is read on is come upon in those read beneath it. -/
lemma mem_found_from {s : List Bytes} (hs : t.Reads wildmatch exclude s) {f : Finding} :
    f ∈ t.found wildmatch exclude spared [render s] ↔ ∃ p, s <+: p ∧ t.Reads wildmatch exclude p ∧
      f ∈ t.ownFound wildmatch exclude spared (render p) := by
  simp only [mem_found, List.mem_singleton, exists_eq_left, reached_from_iff hs]
  constructor
  · rintro ⟨_, ⟨p, hsp, hp, rfl⟩, hf⟩
    exact ⟨p, hsp, hp, hf⟩
  · rintro ⟨p, hsp, hp, hf⟩
    exact ⟨render p, ⟨p, hsp, hp, rfl⟩, hf⟩

/-- What is come upon from the root on is come upon in the directories that are read. -/
lemma mem_found_root (hopens : t.opens [] = true) {f : Finding} :
    f ∈ t.found wildmatch exclude spared [[]] ↔
      ∃ p, t.Reads wildmatch exclude p ∧ f ∈ t.ownFound wildmatch exclude spared (render p) := by
  have hfrom : f ∈ t.found wildmatch exclude spared [render []] ↔ _ :=
    mem_found_from (reads_nil hopens)
  simpa only [render_nil, List.nil_prefix, true_and] using hfrom

section Own

variable {p : List Bytes} {attr : Attr} {r x : Bool} {entries : List (Bytes × Bool × Node)}

/-- What a directory finds by itself is a repository, or itself and what its entries are. -/
lemma ownFound_eq (hat : t.root.at? p = some (.dir attr r x entries)) :
    t.ownFound wildmatch exclude spared (render p) =
      if t.inside (render p) then [.repo (render p)]
      else .dir (render p) (mtimeNs ⟨attr, .directory⟩) ::
        entries.flatMap (t.entFound wildmatch exclude spared (render p) x) := by
  rw [ownFound, components_render (Tree.validPath hat), hat]

/-- Everything an entry amounts to is at the joined path. -/
lemma rel_of_mem_entFound {rel : Bytes} {e : Bytes × Bool × Node} {f : Finding}
    (h : f ∈ t.entFound wildmatch exclude spared rel x e) : f.rel = joinRel rel e.1 := by
  unfold entFound at h
  split at h
  · obtain rfl := List.mem_singleton.mp h
    rfl
  · obtain rfl := List.mem_singleton.mp h
    rfl
  · split_ifs at h <;> obtain rfl := List.mem_singleton.mp h <;> rfl
  · exact absurd h List.not_mem_nil

/-- What is come upon at a path below a directory that is read: what the entry amounts to there,
and, if the entry is read itself, what it is. -/
lemma mem_found_iff_of_rel (hopens : t.opens [] = true)
    (hat : t.root.at? p = some (.dir attr r x entries)) {e : Bytes × Bool × Node} (he : e ∈ entries)
    {f : Finding} (hrel : f.rel = joinRel (render p) e.1) :
    f ∈ t.found wildmatch exclude spared [[]] ↔
      t.Reads wildmatch exclude p ∧ t.inside (render p) = false ∧
        f ∈ t.entFound wildmatch exclude spared (render p) x e ∨
      t.Reads wildmatch exclude (p ++ [e.1]) ∧
        f ∈ t.ownFound wildmatch exclude spared (joinRel (render p) e.1) := by
  have hname := t.valid p attr r x entries hat e he
  rw [mem_found_root hopens]
  constructor
  · rintro ⟨q, hq, hf⟩
    by_cases hself : render q = joinRel (render p) e.1
    · right
      rw [← render_append_singleton] at hself
      have hvalid : ValidPath (p ++ [e.1]) :=
        validPath_append.mpr ⟨Tree.validPath hat, validPath_singleton.mpr hname⟩
      obtain rfl := render_injective hq.validPath hvalid hself
      exact ⟨hq, by rwa [← render_append_singleton]⟩
    · left
      obtain ⟨attr', r', x', entries', hat'⟩ := (hq.opened q (List.prefix_refl q)).1
      rw [ownFound_eq hat'] at hf
      split_ifs at hf with hinside
      · obtain rfl := List.mem_singleton.mp hf
        exact absurd hrel hself
      · rcases List.mem_cons.mp hf with rfl | hf
        · exact absurd hrel hself
        · obtain ⟨e', he', hent⟩ := List.mem_flatMap.mp hf
          obtain ⟨hrels, hnames⟩ := joinRel_injective
              (t.valid q attr' r' x' entries' hat' e' he') hname
            ((rel_of_mem_entFound hent).symm.trans hrel)
          obtain rfl := render_injective hq.validPath (Tree.validPath hat) hrels
          obtain ⟨rfl, rfl, rfl, rfl⟩ : attr = attr' ∧ r = r' ∧ x = x' ∧ entries = entries' := by
            simpa [hat] using hat'
          obtain rfl := List.inj_on_of_nodup_map (t.distinct q attr r x entries hat) he' he hnames
          exact ⟨hq, by simpa using hinside, hent⟩
  · rintro (⟨hp, houtside, hf⟩ | ⟨hp, hf⟩)
    · refine ⟨p, hp, ?_⟩
      rw [ownFound_eq hat, houtside, if_neg Bool.false_ne_true]
      exact List.mem_cons_of_mem _ (List.mem_flatMap.mpr ⟨e, he, hf⟩)
    · exact ⟨p ++ [e.1], hp, by rwa [render_append_singleton]⟩

/-- A joined path is not the path it was joined to. -/
lemma joinRel_ne_render (hat : t.root.at? p = some (.dir attr r x entries))
    {e : Bytes × Bool × Node} (he : e ∈ entries) : joinRel (render p) e.1 ≠ render p := by
  have hvalid : ValidPath (p ++ [e.1]) := validPath_append.mpr
    ⟨Tree.validPath hat, validPath_singleton.mpr (t.valid p attr r x entries hat e he)⟩
  intro heq
  have := render_injective hvalid (Tree.validPath hat) ((render_append_singleton ..).trans heq)
  exact absurd (congrArg List.length this) (by simp)

/-- A directory finds itself as a repository exactly if there is one inside. -/
lemma repo_mem_ownFound_iff (hat : t.root.at? p = some (.dir attr r x entries)) :
    Finding.repo (render p) ∈ t.ownFound wildmatch exclude spared (render p) ↔
      t.inside (render p) = true := by
  rw [ownFound_eq hat]
  cases t.inside (render p) with
  | true => simp
  | false =>
    simp only [Bool.false_eq_true, if_false, iff_false]
    intro h
    rcases List.mem_cons.mp h with h | h
    · cases h
    · obtain ⟨e, he, h⟩ := List.mem_flatMap.mp h
      exact joinRel_ne_render hat he (rel_of_mem_entFound h).symm

/-- Which paths below a directory are repositories to the walk. -/
lemma repo_mem_found_iff (hopens : t.opens [] = true)
    (hat : t.root.at? p = some (.dir attr r x entries)) {e : Bytes × Bool × Node}
    (he : e ∈ entries) :
    Finding.repo (joinRel (render p) e.1) ∈ t.found wildmatch exclude spared [[]] ↔
      t.Reads wildmatch exclude p ∧ t.inside (render p) = false ∧
        (t.verdict wildmatch exclude (render p) x e = .emitted ∨
          t.verdict wildmatch exclude (render p) x e = .entered ∧
            t.inside (joinRel (render p) e.1) = true ∨
          t.verdict wildmatch exclude (render p) x e = .barred ∧
            t.hasGit (joinRel (render p) e.1) = true ∧ spared (joinRel (render p) e.1) = true) := by
  have hreads : t.Reads wildmatch exclude (p ++ [e.1]) ↔ t.Reads wildmatch exclude p ∧
      t.inside (render p) = false ∧ t.verdict wildmatch exclude (render p) x e = .entered := by
    rw [reads_append_singleton, verdict_entered_iff hat he, render_append_singleton]
  have hown : t.verdict wildmatch exclude (render p) x e = .entered →
      (Finding.repo (joinRel (render p) e.1) ∈
        t.ownFound wildmatch exclude spared (joinRel (render p) e.1) ↔
      t.inside (joinRel (render p) e.1) = true) := by
    intro hverdict
    obtain ⟨attr', r', x', entries', hchild⟩ := ((verdict_entered_iff hat he).mp hverdict).1
    rw [← render_append_singleton]
    exact repo_mem_ownFound_iff hchild
  rw [mem_found_iff_of_rel hopens hat he rfl, hreads]
  have hent :
      Finding.repo (joinRel (render p) e.1) ∈ t.entFound wildmatch exclude spared (render p) x e ↔
      t.verdict wildmatch exclude (render p) x e = .emitted ∨
        t.verdict wildmatch exclude (render p) x e = .barred ∧
          t.hasGit (joinRel (render p) e.1) = true ∧ spared (joinRel (render p) e.1) = true := by
    unfold entFound
    cases t.verdict wildmatch exclude (render p) x e with
    | barred =>
      cases t.hasGit (joinRel (render p) e.1) <;> cases spared (joinRel (render p) e.1) <;> simp
    | _ => simp
  rw [hent]
  constructor
  · rintro (⟨hp, houtside, h | h⟩ | ⟨⟨hp, houtside, h⟩, hrepo⟩)
    · exact ⟨hp, houtside, .inl h⟩
    · exact ⟨hp, houtside, .inr (.inr h)⟩
    · exact ⟨hp, houtside, .inr (.inl ⟨h, (hown h).mp hrepo⟩)⟩
  · rintro ⟨hp, houtside, h | ⟨h, hinside⟩ | h⟩
    · exact .inl ⟨hp, houtside, .inl h⟩
    · exact .inr ⟨⟨hp, houtside, h⟩, (hown h).mpr hinside⟩
    · exact .inl ⟨hp, houtside, .inr h⟩

end Own

/-! ## Where a walk depends on its strategy and budget -/

/-- A directory that a walk comes upon, cannot open, and whose `.git` stats. -/
structure Trap (wildmatch : Bytes → Bytes → Bool) (exclude : List Bytes) (t : Tree) (p : List Bytes)
    (name : Bytes) : Prop where
  parent : t.Reads wildmatch exclude p
  outside : t.inside (render p) = false
  dir : t.IsDir (p ++ [name])
  kept : isExcluded wildmatch exclude (render (p ++ [name])) = false
  plain : ¬dotGit <:+ name
  barred : t.opens (render (p ++ [name])) = false
  git : t.hasGit (render (p ++ [name])) = true

/-- What a directory that is read comes upon depends on what is spared only at the traps below
it. -/
lemma ownFound_congr {spared' : Bytes → Bool} {p : List Bytes} (hp : t.Reads wildmatch exclude p)
    (h : ∀ name, t.Trap wildmatch exclude p name →
      spared (render (p ++ [name])) = spared' (render (p ++ [name]))) :
    t.ownFound wildmatch exclude spared (render p) =
      t.ownFound wildmatch exclude spared' (render p) := by
  obtain ⟨attr, r, x, entries, hat⟩ := (hp.opened p (List.prefix_refl p)).1
  rw [ownFound_eq hat, ownFound_eq hat]
  cases houtside : t.inside (render p) with
  | true => rfl
  | false =>
    have hents : ∀ e ∈ entries, t.entFound wildmatch exclude spared (render p) x e =
        t.entFound wildmatch exclude spared' (render p) x e := by
      intro e he
      unfold entFound
      cases hverdict : t.verdict wildmatch exclude (render p) x e with
      | barred =>
        obtain ⟨hdir, -, hbarred, hkept, hplain⟩ := (verdict_barred_iff hat he).mp hverdict
        rw [← render_append_singleton] at hbarred hkept ⊢
        cases hgit : t.hasGit (render (p ++ [e.1])) with
        | false => rfl
        | true => rw [h e.1 ⟨hp, houtside, hdir, hkept, hplain, hbarred, hgit⟩]
      | _ => rfl
    rw [List.flatMap_congr hents]

/-- What is come upon beneath a directory that is read depends on what is spared only at the traps
there. -/
lemma found_congr {spared' : Bytes → Bool} {s : List Bytes} (hs : t.Reads wildmatch exclude s)
    (h : ∀ p name, s <+: p → t.Trap wildmatch exclude p name →
      spared (render (p ++ [name])) = spared' (render (p ++ [name]))) :
    t.found wildmatch exclude spared [render s] = t.found wildmatch exclude spared' [render s] := by
  have hunfolds := unfolds_unfolding (exists_unfolds_entered wildmatch exclude t) [render s]
  rw [found, found, List.flatMap_congr fun rel hrel => ?_]
  obtain ⟨_, hstart, hreads⟩ := hunfolds.mem_iff.mp hrel
  obtain rfl := List.mem_singleton.mp hstart
  obtain ⟨p, hsp, hp, rfl⟩ := (reached_from_iff hs).mp hreads
  exact ownFound_congr hp fun name => h p name hsp

/-- A trap is a repository to the walk exactly when it is spared. -/
lemma Trap.repo_mem_found_iff {p : List Bytes} {name : Bytes}
    (h : t.Trap wildmatch exclude p name) :
    Finding.repo (render (p ++ [name])) ∈ t.found wildmatch exclude spared [[]] ↔
      spared (render (p ++ [name])) = true := by
  obtain ⟨attr, r, x, entries, hat⟩ := (h.parent.opened p (List.prefix_refl p)).1
  obtain ⟨attr', r', x', entries', hchild⟩ := h.dir
  obtain ⟨e, he, rfl, -⟩ := exists_entry hat hchild
  have hgit := h.git
  have hbarred := h.barred
  have hkept := h.kept
  rw [render_append_singleton] at hgit hbarred hkept ⊢
  have hverdict : t.verdict wildmatch exclude (render p) x e = .barred :=
    (verdict_barred_iff hat he).mpr
      ⟨h.dir, .inr (searchable_of_hasGit hat he hgit), hbarred, hkept, h.plain⟩
  rw [Tree.repo_mem_found_iff (h.parent.opened [] List.nil_prefix).2 hat he, hverdict]
  simp [h.parent, h.outside, hgit]

/-- Whatever is come upon is there. -/
lemma exists_node_of_mem_found (hopens : t.opens [] = true) {f : Finding}
    (h : f ∈ t.found wildmatch exclude spared [[]]) :
    ∃ p n, t.root.at? p = some n ∧ f.rel = render p := by
  obtain ⟨p, hp, hf⟩ := (mem_found_root hopens).mp h
  obtain ⟨attr, r, x, entries, hat⟩ := (hp.opened p (List.prefix_refl p)).1
  rw [ownFound_eq hat] at hf
  split_ifs at hf
  · obtain rfl := List.mem_singleton.mp hf
    exact ⟨p, _, hat, rfl⟩
  · rcases List.mem_cons.mp hf with rfl | hf
    · exact ⟨p, _, hat, rfl⟩
    · obtain ⟨e, he, hent⟩ := List.mem_flatMap.mp hf
      exact ⟨p ++ [e.1], e.2.2, at?_entry hat he,
        by rw [rel_of_mem_entFound hent, render_append_singleton]⟩

/-- Whatever is come upon lies at a path. -/
lemma exists_path_of_mem_found (hopens : t.opens [] = true) {f : Finding}
    (h : f ∈ t.found wildmatch exclude spared [[]]) : ∃ p, ValidPath p ∧ f.rel = render p := by
  obtain ⟨p, n, hat, hrel⟩ := exists_node_of_mem_found hopens h
  exact ⟨p, Tree.validPath hat, hrel⟩

end Tree

/-! ## The same answer -/

/-- Two listings that differ in nothing but their order and the number of directories read. -/
structure Out.Agrees (a b : Out) : Prop where
  arena : a.arena.Perm b.arena
  records : a.records.Perm b.records
  excluded : a.excluded = b.excluded
  incomplete : a.incomplete = b.incomplete

/-- Two walks with the same answer: they fail alike, or their listings agree. -/
inductive SameAnswer : Except WalkError RootListing → Except WalkError RootListing → Prop
  | error (err : WalkError) : SameAnswer (.error err) (.error err)
  | ok {a b : Out} (h : a.Agrees b) : SameAnswer (.ok a) (.ok b)

/-- A result is the same answer as itself. -/
lemma SameAnswer.refl (result : Except WalkError RootListing) : SameAnswer result result := by
  cases result with
  | error err => exact .error err
  | ok a => exact .ok ⟨.rfl, .rfl, rfl, rfl⟩

/-- Listings that report the same agree. -/
lemma Out.Reports.agrees {a b : Out} {recorded : Bool} {found : Multiset Finding}
    (ha : a.Reports recorded found) (hb : b.Reports recorded found) : a.Agrees b where
  arena := Multiset.coe_eq_coe.mp (ha.arena.trans hb.arena.symm)
  records := Multiset.coe_eq_coe.mp (ha.records.trans hb.records.symm)
  excluded := ha.excluded.trans hb.excluded.symm
  incomplete := Bool.eq_iff_iff.mpr (ha.incomplete.trans hb.incomplete.symm)

/-- What is printed for a path below the root is printed for a repository there. -/
lemma Out.Reports.mem_arena_iff {a : Out} {recorded : Bool}
    (h : a.Reports recorded (t.found wildmatch exclude spared [[]])) (hopens : t.opens [] = true)
    {p : List Bytes} (hp : ValidPath p) :
    Tree.printed (render p) ∈ a.arena ↔
      Finding.repo (render p) ∈ t.found wildmatch exclude spared [[]] := by
  rw [← Multiset.mem_coe, h.arena, Multiset.mem_filterMap]
  constructor
  · rintro ⟨f, hf, hprinted⟩
    obtain ⟨q, hq, hrel⟩ := Tree.exists_path_of_mem_found hopens hf
    cases f with
    | repo rel =>
      obtain rfl : rel = render q := hrel
      obtain rfl := printed_injective hq hp (Option.some.inj hprinted)
      exact hf
    | _ => cases hprinted
  · exact fun hf => ⟨_, hf, rfl⟩

/-- The two `.git` detection strategies are interchangeable as long as the budget lasts: both walks
can return, and whatever they return, they emit the same repositories, record the same entries,
prune alike, and set the incomplete flag alike. -/
theorem strategies_agree (wildmatch : Bytes → Bytes → Bool) (t : Tree) (root : Bytes)
    (threads threads' : ℕ) (exclude : List Bytes) (record : Bool) :
    (∃ a, WalkRootCapped wildmatch (fun _ => false) t.host root
      ⟨threads, exclude, .openScan, record⟩ a) ∧
    (∃ b, WalkRootCapped wildmatch (fun _ => false) t.host root
      ⟨threads', exclude, .statFirst, record⟩ b) ∧
    ∀ a b, WalkRootCapped wildmatch (fun _ => false) t.host root
      ⟨threads, exclude, .openScan, record⟩ a →
      WalkRootCapped wildmatch (fun _ => false) t.host root
        ⟨threads', exclude, .statFirst, record⟩ b → SameAnswer a b := by
  refine ⟨WalkRootCapped.exists_tree .., WalkRootCapped.exists_tree .., fun a b ha hb => ?_⟩
  by_cases hinto : t.WalksInto root
  · obtain ⟨a, rfl, hareports⟩ := ha.reports hinto
    obtain ⟨b, rfl, hbreports⟩ := hb.reports hinto
    exact .ok (hareports.agrees hbreports)
  · rw [ha.eq_of_not_walksInto hinto hb rfl]
    exact .refl b

/-- A root with a directory `p` of mode 0111, which holds a `.git`. -/
def trapTree : Tree :=
  .ofDir ⟨1, 2, 0o755, 100, 0⟩ true true
    [(ascii ['p'], true, .dir ⟨1, 3, 0o111, 100, 0⟩ false true
      [(dotGit, true, .emptyDir ⟨1, 4, 0o755, 100, 0⟩)])]
    (.dir (by decide) (by
      simp only [List.forall_mem_singleton]
      exact ⟨by decide, .dir (by decide) (by simpa using ⟨by decide, .emptyDir _⟩)⟩))

/-- Both strategies list the repository `p` of that root. -/
theorem strategies_agree_sample : ∃ a b : Out,
    WalkRootCapped (fun _ _ => false) (fun _ => false) trapTree.host (ascii ['/', 'r'])
      ⟨2, [], .openScan, true⟩ (.ok a) ∧
    WalkRootCapped (fun _ _ => false) (fun _ => false) trapTree.host (ascii ['/', 'r'])
      ⟨4, [], .statFirst, true⟩ (.ok b) ∧
    ascii ['p'] ∈ a.arena ∧ SameAnswer (.ok a) (.ok b) := by
  have ha : WalkRootCapped (fun _ _ => false) (fun _ => false) trapTree.host (ascii ['/', 'r'])
      ⟨2, [], .openScan, true⟩ (.ok ⟨[ascii ['p']], 1, 0,
        [.dir [] 100000000000, .repo (ascii ['p'])], false⟩) := by
    rw [WalkRootCapped, if_neg (by decide), if_neg (by decide), if_neg (by decide)]
    exact (if_pos rfl).mpr rfl
  have hb : WalkRootCapped (fun _ _ => false) (fun _ => false) trapTree.host (ascii ['/', 'r'])
      ⟨4, [], .statFirst, true⟩ (.ok ⟨[ascii ['p']], 1, 0,
        [.dir [] 100000000000, .repo (ascii ['p'])], false⟩) := by
    rw [WalkRootCapped, if_neg (by decide), if_neg (by decide), if_neg (by decide)]
    exact (if_pos rfl).mpr rfl
  exact ⟨_, _, ha, hb, List.mem_singleton_self _,
    (strategies_agree (fun _ _ => false) trapTree (ascii ['/', 'r']) 2 4 [] true).2.2 _ _ ha hb⟩

/-- A walk with a descriptor budget has the answer of the walk without one, under any number of
workers and whatever the schedules, if and only if the strategy is stat-first or the budget is not
used up at any directory that is come upon, cannot be opened, and whose `.git` stats. -/
theorem budget_agrees_iff (wildmatch : Bytes → Bytes → Bool) (t : Tree) (root : Bytes)
    (opts : WalkOptions) (threads : ℕ) (full : Bytes → Bool) {a b : Except WalkError RootListing}
    (ha : WalkRootCapped wildmatch full t.host root opts a)
    (hb : WalkRootCapped wildmatch (fun _ => false) t.host root { opts with threads := threads }
      b) :
    SameAnswer a b ↔ opts.detect = .statFirst ∨
      (t.WalksInto root → ∀ p name, t.Trap wildmatch opts.exclude p name →
        full (render (p ++ [name])) = false) := by
  by_cases hinto : t.WalksInto root
  · obtain ⟨a, rfl, hareports⟩ := ha.reports hinto
    obtain ⟨b, rfl, hbreports⟩ := hb.reports hinto
    constructor
    · rintro (_ | hagrees)
      rcases hdetect : opts.detect with _ | _
      · refine .inr fun _ p name htrap => ?_
        have hvalid : ValidPath (p ++ [name]) := htrap.dir.validPath
        have hmem : Tree.printed (render (p ++ [name])) ∈ b.arena :=
          (hbreports.mem_arena_iff hinto.opens hvalid).mpr
            (htrap.repo_mem_found_iff.mpr (by simp [Tree.sparedBy]))
        have hspared := htrap.repo_mem_found_iff.mp
          ((hareports.mem_arena_iff hinto.opens hvalid).mp (hagrees.arena.mem_iff.mpr hmem))
        simpa [Tree.sparedBy, hdetect] using hspared
      · exact .inl rfl
    · intro hcond
      have hsame : t.found wildmatch opts.exclude (Tree.sparedBy opts.detect full) [[]] =
          t.found wildmatch opts.exclude (Tree.sparedBy opts.detect fun _ => false) [[]] := by
        refine Tree.found_congr (Tree.reads_nil hinto.opens) fun p name _ htrap => ?_
        rcases hcond with hfirst | hfull
        · simp [Tree.sparedBy, hfirst]
        · rw [Tree.sparedBy, Tree.sparedBy, hfull hinto p name htrap]
      rw [hsame] at hareports
      exact .ok (hareports.agrees hbreports)
  · rw [ha.eq_of_not_walksInto hinto hb rfl]
    exact ⟨fun _ => .inr fun h => absurd h hinto, fun _ => .refl b⟩

/-- The trap is a tree that is walked into. -/
lemma trapTree_walksInto : trapTree.WalksInto (ascii ['/', 'r']) := by decide

/-- The directory `p` is a trap. -/
lemma trapTree_trap : trapTree.Trap (fun _ _ => false) [] [] (ascii ['p']) where
  parent := Tree.reads_nil (by decide)
  outside := by decide
  dir := ⟨_, _, _, _, rfl⟩
  kept := rfl
  plain := by decide
  barred := by decide
  git := by decide

/-- Under stat-first the budget makes no difference even there. -/
theorem budget_agrees_iff_sample : ∃ a b,
    WalkRootCapped (fun _ _ => false) (fun _ => true) trapTree.host (ascii ['/', 'r'])
      ⟨2, [], .statFirst, true⟩ a ∧
    WalkRootCapped (fun _ _ => false) (fun _ => false) trapTree.host (ascii ['/', 'r'])
      ⟨4, [], .statFirst, true⟩ b ∧ SameAnswer a b := by
  obtain ⟨a, ha⟩ := WalkRootCapped.exists_tree (fun _ _ => false) trapTree (ascii ['/', 'r'])
    ⟨2, [], .statFirst, true⟩ fun _ => true
  obtain ⟨b, hb⟩ := WalkRootCapped.exists_tree (fun _ _ => false) trapTree (ascii ['/', 'r'])
    ⟨4, [], .statFirst, true⟩ fun _ => false
  exact ⟨a, b, ha, hb, (budget_agrees_iff (fun _ _ => false) trapTree (ascii ['/', 'r'])
    ⟨2, [], .statFirst, true⟩ 4 (fun _ => true) ha hb).mpr (.inl rfl)⟩

/-- With a cap of zero the walk of that root drops the repository that the walk without a cap
lists. -/
theorem budget_disagrees : ∃ a b : Out,
    WalkRootCapped (fun _ _ => false) (fun _ => true) trapTree.host (ascii ['/', 'r'])
      ⟨2, [], .openScan, true⟩ (.ok a) ∧
    WalkRootCapped (fun _ _ => false) (fun _ => false) trapTree.host (ascii ['/', 'r'])
      ⟨2, [], .openScan, true⟩ (.ok b) ∧
    ascii ['p'] ∉ a.arena ∧ a.incomplete = true ∧ ascii ['p'] ∈ b.arena ∧ b.incomplete = false := by
  obtain ⟨a, ha⟩ := WalkRootCapped.exists_tree (fun _ _ => false) trapTree (ascii ['/', 'r'])
    ⟨2, [], .openScan, true⟩ fun _ => true
  obtain ⟨a, rfl, hreports⟩ := ha.reports trapTree_walksInto
  have hb : WalkRootCapped (fun _ _ => false) (fun _ => false) trapTree.host (ascii ['/', 'r'])
      ⟨2, [], .openScan, true⟩ (.ok ⟨[ascii ['p']], 1, 0,
        [.dir [] 100000000000, .repo (ascii ['p'])], false⟩) := by
    rw [WalkRootCapped, if_neg (by decide), if_neg (by decide), if_neg (by decide)]
    exact (if_pos rfl).mpr rfl
  refine ⟨a, _, ha, hb, fun hmem => ?_, hreports.incomplete.mpr ⟨ascii ['p'], ?_⟩,
    List.mem_singleton_self _, rfl⟩
  · have hrepo := (hreports.mem_arena_iff trapTree_walksInto.opens (p := [ascii ['p']])
      (by decide)).mp hmem
    exact absurd (trapTree_trap.repo_mem_found_iff.mp hrepo) (by decide)
  · refine (Tree.mem_found_root trapTree_walksInto.opens).mpr ⟨[], Tree.reads_nil (by decide), ?_⟩
    decide

end Scap
