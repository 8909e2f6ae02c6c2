import Scap.Commands.Steps

/-!
# What a job leaves alone

A job changes something at or below its destination, its lock path and the names of temporary
directories beside its destination (`Job.Foot`), and at its destination only after it has found that
it may.  `Job.Inv` says this, and what each stage says of the destination; the steps of the job keep
it (`Job.Inv.step`), and so do steps of others that do not come near it (`Job.Inv.other`).
-/

namespace Scap

namespace Commands

open Config (CommandError PathBuf)

variable {o : Outside}

/-! ## Where a job changes something -/

namespace Job

variable (j : Job o)

/-- The paths at or below which a job changes something. -/
def Foot : Set (List Bytes) := fun a =>
  a = j.place ∨ ∃ args pid, j.command = .get args pid ∧
    (a = j.lockPath ∨
      ∃ suffix, (suffix = Clone.decimal pid ∨ (Clone.parseI32 suffix).isSome = true) ∧
        a = j.tmpOf suffix)

/-- Two jobs do not meet: no path of one is at, above or below one of the other. -/
def Apart (j j' : Job o) : Prop := ∀ a ∈ j.Foot, ∀ b ∈ j'.Foot, ¬a <+: b ∧ ¬b <+: a

/-- A root is not below a path of the job, and no directory on the way from it to the destination is
named like a repository. -/
structure Clean (r : List Bytes) : Prop where
  above : ∀ a ∈ j.Foot, ¬a <+: r
  plain : ∀ s, j.place = r ++ s → Conventional s

variable {j}

/-- The destination is a path of the job. -/
lemma place_mem_foot : j.place ∈ j.Foot := .inl rfl

/-- The lock path is a path of the job. -/
lemma lockPath_mem_foot {args : GetArgs} {pid : ℕ} (h : j.command = .get args pid) :
    j.lockPath ∈ j.Foot := .inr ⟨args, pid, h, .inl rfl⟩

/-- The temporary directory is a path of the job. -/
lemma tmpPath_mem_foot {args : GetArgs} {pid : ℕ} (h : j.command = .get args pid) :
    j.tmpPath pid ∈ j.Foot := .inr ⟨args, pid, h, .inr ⟨_, .inl rfl, rfl⟩⟩

/-- The paths are in one directory, and only the destination could be a `.git`. -/
lemma exists_of_mem_foot {a : List Bytes} (h : a ∈ j.Foot) :
    ∃ x, a = j.above ++ [x] ∧ (a ≠ j.place → x ≠ dotGit) := by
  have hnot : ∀ {text : Str}, 4 < (toBytes text).length → toBytes text ≠ dotGit := by
    rintro text hlength heq
    rw [heq] at hlength
    exact absurd hlength (by decide)
  rcases h with rfl | ⟨args, pid, -, rfl | ⟨suffix, -, rfl⟩⟩
  · exact ⟨j.name, rfl, fun hne => absurd rfl hne⟩
  · refine ⟨_, rfl, fun _ => hnot ?_⟩
    have hlength : (toBytes ".scap-lock-".toList).length = 11 := by decide
    rw [toBytes_append, List.length_append]
    omega
  · refine ⟨_, rfl, fun _ => hnot ?_⟩
    have hlength : (toBytes ".tmp-".toList).length = 5 := by decide
    rw [toBytes_append, toBytes_append, List.length_append, List.length_append]
    omega

/-- Paths in one directory are neither above nor below one another. -/
lemma not_prefix_of_mem_foot {a b : List Bytes} (ha : a ∈ j.Foot) (hb : b ∈ j.Foot) (hne : a ≠ b) :
    ¬a <+: b := by
  obtain ⟨x, rfl, -⟩ := exists_of_mem_foot ha
  obtain ⟨y, rfl, -⟩ := exists_of_mem_foot hb
  exact fun h => hne (h.eq_of_length (by simp))

/-- What holds of the way to the destination holds of the way to the paths beside it. -/
lemma Clean.conventional {r a s : List Bytes} (h : j.Clean r) (ha : a ∈ j.Foot)
    (hs : a = r ++ s) : Conventional s := by
  obtain ⟨x, hx, hgit⟩ := exists_of_mem_foot ha
  by_cases hplace : a = j.place
  · exact h.plain s (hplace.symm.trans hs)
  rcases List.eq_nil_or_concat' s with rfl | ⟨s, y, rfl⟩
  · exact ⟨by simp, by simp⟩
  · rw [hx, ← List.append_assoc] at hs
    obtain ⟨habove, hxy⟩ := List.append_inj' hs rfl
    obtain rfl : x = y := by simpa using hxy
    have hway := h.plain (s ++ [j.name]) (by rw [place, habove, List.append_assoc])
    refine ⟨?_, ?_⟩
    · have habove' := hway.above
      rwa [List.dropLast_concat] at habove' ⊢
    · rw [List.getLast?_concat]
      exact fun heq => hgit hplace (Option.some.inj heq)

end Job

/-! ## Changes at a set of paths -/

/-- One tree becomes another by changes at or below some paths. -/
def Touches (F : Set (List Bytes)) : Tree → Tree → Prop :=
  Relation.ReflTransGen fun t t' => t'.Accessible ∧ ∃ a ∈ F, t.SameBut t' a

variable {F : Set (List Bytes)} {t t' t₀ : Tree} {b q r : List Bytes}

namespace Touches

/-- Putting something at one of the paths is a change there. -/
lemma of_puts {a : List Bytes} {new : Option Node} (ha : a ∈ F) (ht' : t'.Accessible)
    (h : t.Puts t' a new) : Touches F t t' := by
  rcases h.sameBut with rfl | hsame
  · exact .refl
  · exact .single ⟨ht', a, ha, hsame⟩

/-- A change at some paths is one at more paths. -/
lemma mono {G : Set (List Bytes)} (h : Touches F t t') (hsubset : F ⊆ G) : Touches G t t' := by
  induction h with
  | refl => exact .refl
  | tail _ hstep ih =>
    obtain ⟨ht', a, ha, hsame⟩ := hstep
    exact .tail ih ⟨ht', a, hsubset ha, hsame⟩

/-- Changes leave the directories accessible. -/
lemma accessible (h : Touches F t t') (ht : t.Accessible) : t'.Accessible := by
  induction h with
  | refl => exact ht
  | tail _ hstep _ => exact hstep.1

/-- What is not above, at or below one of the paths stays. -/
lemma at?_eq (h : Touches F t t') (hq : ∀ a ∈ F, ¬q <+: a ∧ ¬a <+: q) :
    t'.root.at? q = t.root.at? q := by
  induction h with
  | refl => rfl
  | tail _ hstep ih =>
    obtain ⟨-, a, ha, hsame⟩ := hstep
    exact (hsame.off q (hq a ha).1 (hq a ha).2).trans ih

/-- At and below a path that meets none of them nothing changes. -/
lemma at?_append (h : Touches F t t') (hb : ∀ a ∈ F, ¬a <+: b ∧ ¬b <+: a) (x : List Bytes) :
    t'.root.at? (b ++ x) = t.root.at? (b ++ x) :=
  h.at?_eq fun a ha => ⟨fun hx => (hb a ha).2 ((List.prefix_append b x).trans hx), fun hx =>
    (List.prefix_or_prefix_of_prefix hx (List.prefix_append b x)).elim (hb a ha).1 (hb a ha).2⟩

/-- What is neither at nor below one of the paths is listed as before. -/
lemma mem_catalog_iff {wildmatch : Bytes → Bytes → Bool} {exclude : List Bytes}
    (h : Touches F t t') (ht : t.Accessible)
    (hF : ∀ a ∈ F, ¬a <+: r ∧ ∀ s, a = r ++ s → Conventional s) (hq : ∀ a ∈ F, ¬a <+: q) :
    q ∈ t'.catalog wildmatch exclude r ↔ q ∈ t.catalog wildmatch exclude r := by
  induction h with
  | refl => exact Iff.rfl
  | tail hrun hstep ih =>
    obtain ⟨ht', a, ha, hsame⟩ := hstep
    exact (hsame.mem_catalog_iff (Touches.accessible hrun ht) ht' (hF a ha).2 (hF a ha).1
      (hq a ha)).trans ih

end Touches

/-! ## What holds of a job -/

namespace Job

variable (j : Job o)

/-- At and below the destination everything is as it was, and listed as it was for these roots. -/
structure Same (roots : Set (List Bytes)) (t₀ t : Tree) : Prop where
  objects : ∀ x, t.root.at? (j.place ++ x) = t₀.root.at? (j.place ++ x)
  listed : ∀ wildmatch exclude, ∀ r ∈ roots, ∀ q, j.place <+: q →
    (q ∈ t.catalog wildmatch exclude r ↔ q ∈ t₀.catalog wildmatch exclude r)

/-- The job may change something at its destination, by what was there and what it was told. -/
def MayChange (t₀ : Tree) : Prop :=
  match j.command with
  | .create _ => Vacant t₀ j.place
  | .rm args stdin => args.dryRun = false ∧ confirm stdin = .ok true ∧ t₀.IsDir j.place
  | .get args _ => args.update = true ∨ Vacant t₀ j.place

/-- The job is about to change something at its destination, or has, or has failed to. -/
def Loud : Stage → Prop
  | .making | .calling _ | .working .. | .removing | .unlocking (.ok _) => True
  | .done (.error e) => e.Late
  | _ => False

/-- There is a repository at the destination. -/
def Present (t : Tree) : Prop := t.IsDir j.place ∧ t.IsRepo j.place

/-- What a job that succeeds has achieved. -/
def Achieved (t : Tree) : Prop :=
  match j.command with
  | .rm args _ => args.dryRun = true ∨ t.root.at? j.place = none
  | _ => j.Present t

/-- What a stage says of the destination and of the temporary directory. -/
def Fits (t : Tree) : Stage → Prop
  | .calling call => (∀ args stdin, j.command ≠ .rm args stdin) ∧ t.IsDir j.place ∧
      (call ≠ .init → t.IsRepo j.place)
  | .working call n => (∀ args stdin, j.command ≠ .rm args stdin) ∧ n.fileType = .directory ∧
      (call ≠ .init → Tree.BareName j.place ∨ HoldsGit n)
  | .asking => t.IsDir j.place ∧ ∃ args stdin, j.command = .rm args stdin ∧ args.dryRun = false
  | .removing => ∃ args stdin, j.command = .rm args stdin
  | .cleaning stale => ∀ q ∈ stale, ∃ suffix, (Clone.parseI32 suffix).isSome = true ∧
      q = j.tmpOf suffix
  | .cloned => ∀ args pid, j.command = .get args pid → ∃ m, t.root.at? (j.tmpPath pid) = some m ∧
      (Tree.BareName j.place ∨ HoldsGit m)
  | .discarding e | .unlocking (.error e) => ¬e.Late
  | .unlocking (.ok _) => j.Present t
  | .done (.ok _) => j.Achieved t
  | _ => True

/-- The invariant of a job: its destination is as it was, unless it may have changed it, and is what
its stage says. -/
structure Inv (roots : Set (List Bytes)) (t₀ : Tree) (stage : Stage) (t : Tree) : Prop where
  same : j.Same roots t₀ t ∨ j.MayChange t₀ ∧ (Loud stage ∨ ∃ out, stage = .done (.ok out))
  may : Loud stage → j.MayChange t₀
  fits : j.Fits t stage

variable {j} {roots : Set (List Bytes)}

/-- `rm` may change something if it is no dry run, was confirmed, and finds a directory. -/
lemma mayChange_rm {args : RmArgs} {stdin : Except Errno Bytes} (h : j.MayChange t₀)
    (hcommand : j.command = .rm args stdin) :
    args.dryRun = false ∧ confirm stdin = .ok true ∧ t₀.IsDir j.place := by
  unfold MayChange at h
  rwa [hcommand] at h

/-- `rm` has succeeded if the run was dry or nothing is left. -/
lemma Achieved.rm {args : RmArgs} {stdin : Except Errno Bytes} (h : j.Achieved t)
    (hcommand : j.command = .rm args stdin) : args.dryRun = true ∨ t.root.at? j.place = none := by
  unfold Achieved at h
  rwa [hcommand] at h

/-- Another command has succeeded if there is a repository. -/
lemma Achieved.present (h : j.Achieved t) (hrm : ∀ args stdin, j.command ≠ .rm args stdin) :
    j.Present t := by
  unfold Achieved at h
  split at h
  · rename_i hcommand
    exact absurd hcommand (hrm _ _)
  · exact h

/-- What is vacant and the same was vacant before. -/
lemma Same.vacant (h : j.Same roots t₀ t) (hvacant : Vacant t j.place) : Vacant t₀ j.place := by
  have hat := h.objects []
  rw [List.append_nil] at hat
  rwa [Vacant, hat] at hvacant

/-- Where there is a directory that is named like a repository or holds a `.git`, there is a
repository. -/
lemma present_of_at? (ht : t.Accessible) {n : Node} (hat : t.root.at? j.place = some n)
    (hdir : n.fileType = .directory) (hgit : Tree.BareName j.place ∨ HoldsGit n) : j.Present t := by
  obtain ⟨attr, r, x, entries, heq⟩ := Node.exists_dir_of_fileType hdir
  obtain rfl := Option.some.inj heq
  exact ⟨⟨attr, r, x, entries, hat⟩, (Tree.isRepo_iff_at ht hat).mpr hgit⟩

/-- What `dest_is_git_repo` takes for a repository is one. -/
lemma present_of_destIsGitRepo (ht : t.Accessible) (hdirect : Direct t j.place)
    (h : destIsGitRepo j.name (t.root.at? j.place) = true) : j.Present t := by
  cases hat : t.root.at? j.place with
  | none => simp [hat, destIsGitRepo] at h
  | some n =>
    have hdir : ∀ {fileType path}, path ≠ [] → leadsTo fileType n path = true →
        n.fileType = .directory ∧ succeeds (n.find true path) = true := by
      intro fileType path hpath hleads
      unfold leadsTo at hleads
      cases hfind : n.find true path with
      | error e => simp [hfind] at hleads
      | ok stat =>
        obtain ⟨name, path, rfl⟩ := List.exists_cons_of_ne_nil hpath
        cases n with
        | dir attr r x entries => exact ⟨rfl, rfl⟩
        | file attr fileType plain => cases hfind
        | link attr resolve => exact absurd hat (hdirect _ (List.prefix_refl _) attr resolve)
    rw [hat, destIsGitRepo, Bool.or_eq_true] at h
    rcases h with h | h
    · exact present_of_at? ht hat (hdir (by simp) h).1 (.inr (hdir (by simp) h).2)
    · simp only [Bool.and_eq_true] at h
      obtain ⟨⟨⟨hname, -⟩, -⟩, hrefs⟩ := h
      refine present_of_at? ht hat (hdir (by simp) hrefs).1 (.inl ?_)
      obtain ⟨text, htext, hsuffix⟩ := Option.any_eq_true _ _ |>.mp hname
      obtain ⟨init, hinit⟩ := List.isSuffixOf_iff_suffix.mp hsuffix
      refine Tree.bareName_append_singleton.mpr ⟨toBytes init, ?_⟩
      rw [← fromUtf8_eq_some_iff.mp htext, ← hinit, toBytes_append]
      rfl

/-- What follows a `git` in the destination. -/
lemma fits_returned {call : Call} {success : Bool} (hrm : ∀ args stdin, j.command ≠ .rm args stdin)
    (hdir : t.IsDir j.place) (hrepo : call ≠ .init ∨ success = true → t.IsRepo j.place) :
    j.Fits t (j.returned call success) := by
  have hdone : ∀ out, t.IsRepo j.place → j.Fits t (.done (.ok out)) := by
    intro out h
    unfold Fits Achieved
    dsimp only
    split
    · rename_i hcommand
      exact absurd hcommand (hrm _ _)
    · exact ⟨hdir, h⟩
  have hnext : ∀ next, call ≠ .init → call.next j.recursive success = some next →
      j.Fits t (.calling next) := fun next hcall h =>
    ⟨hrm, hdir, fun _ => hrepo (.inl hcall)⟩
  unfold returned
  split
  · cases success with
    | false => trivial
    | true => exact hdone _ (hrepo (.inr rfl))
  · rename_i hcall
    split
    · exact hnext _ hcall ‹_›
    · cases success with
      | false => trivial
      | true => exact hdone _ (hrepo (.inl hcall))

/-- After a `git` the job goes on or has succeeded. -/
lemma loud_returned (call : Call) (success : Bool) :
    Loud (j.returned call success) ∨ ∃ out, j.returned call success = .done (.ok out) := by
  unfold returned
  split
  · cases success with
    | false => exact .inl trivial
    | true => exact .inr ⟨_, rfl⟩
  · split
    · exact .inl trivial
    · cases success with
      | false => exact .inl trivial
      | true => exact .inr ⟨_, rfl⟩

/-- What the sweep finds are names of temporary directories. -/
lemma exists_of_mem_staleTmpPaths {alive : ℕ → Bool} (h : q ∈ j.staleTmpPaths alive t) :
    ∃ suffix, (Clone.parseI32 suffix).isSome = true ∧ q = j.tmpOf suffix := by
  obtain ⟨path, hpath, hnames⟩ := List.mem_filterMap.mp h
  obtain ⟨dir, name, suffix, entries, hdest, -, -, hstale, rfl⟩ :=
    Clone.mem_staleTmpPaths_iff.mp hpath
  have hplaced := j.placed
  rw [placeOf, hdest] at hplaced
  obtain ⟨a, ha, hplace⟩ := namesOf_concat.mp hplaced
  obtain ⟨a', ha', rfl⟩ := namesOf_concat.mp hnames
  obtain rfl : a = a' := Option.some.inj (ha.symm.trans ha')
  obtain ⟨habove, hname⟩ := List.append_inj' hplace rfl
  have hlabel : j.label = name := by
    rw [label, (List.cons.inj hname).1, fromUtf8_toBytes, Option.getD_some]
  obtain ⟨pid, hpid, -⟩ := Clone.isStale_iff.mp hstale
  exact ⟨suffix, by rw [hpid, Option.isSome_some], by rw [tmpOf, habove, hlabel]⟩

/-- What a job does once it has looked fits what it has seen. -/
lemma Same.look (h : j.Same roots t₀ t) (ht : t.Accessible) (hdirect : Direct t j.place) :
    (Loud (j.look t) → j.MayChange t₀) ∧ j.Fits t (j.look t) := by
  unfold Job.look MayChange
  cases hcommand : j.command with
  | create args =>
    dsimp only
    split
    · rename_i hcheck
      exact ⟨fun hlate => absurd hlate (not_late_of_isNotExistOrEmpty hcheck), trivial⟩
    · exact ⟨False.elim, trivial⟩
    · rename_i hcheck
      exact ⟨fun _ => h.vacant (vacant_of_isNotExistOrEmpty hcheck).2, trivial⟩
  | rm args stdin =>
    dsimp only
    split
    · rename_i hcheck
      exact ⟨fun hlate => absurd hlate (not_late_of_isNotExistOrEmpty hcheck), trivial⟩
    · exact ⟨False.elim, trivial⟩
    · rename_i hcheck
      split
      · rename_i hdry
        refine ⟨False.elim, ?_⟩
        unfold Fits Achieved
        rw [hcommand]
        exact .inl hdry
      · rename_i hdry
        exact ⟨False.elim, isDir_of_isNotExistOrEmpty hcheck, args, stdin, hcommand,
          Bool.not_eq_true _ ▸ hdry⟩
  | get args pid =>
    dsimp only
    have hrm : ∀ args' stdin, j.command ≠ .rm args' stdin := by simp [hcommand]
    split
    · rename_i hrepo
      obtain ⟨hdir, hrepo⟩ := present_of_destIsGitRepo ht hdirect hrepo
      split
      · rename_i hupdate
        exact ⟨fun _ => .inl hupdate, hrm, hdir, fun _ => hrepo⟩
      · refine ⟨False.elim, ?_⟩
        unfold Fits Achieved
        rw [hcommand]
        exact ⟨hdir, hrepo⟩
    · exact ⟨False.elim, trivial⟩

/-- Before a job changes something nothing has changed. -/
lemma Inv.calm {a : Stage} (h : j.Inv roots t₀ a t) (hloud : ¬Loud a)
    (hdone : ∀ out, a ≠ .done (.ok out)) : j.Same roots t₀ t :=
  h.same.resolve_right fun ⟨_, hor⟩ => hor.elim hloud fun ⟨out, hout⟩ => hdone out hout

/-- A step that changes nothing but the stage keeps the invariant. -/
lemma Inv.move {a b : Stage} (h : j.Inv roots t₀ a t) (ht : t.Accessible) (hmove : Move j t a b) :
    j.Inv roots t₀ b t := by
  have keep : ∀ {b : Stage}, (∀ out, a ≠ .done (.ok out)) →
      (Loud a → Loud b ∨ ∃ out, b = .done (.ok out)) → (Loud b → j.MayChange t₀) → j.Fits t b →
        j.Inv roots t₀ b t := fun hdone hloud hmay hfits =>
    ⟨h.same.imp_right fun ⟨hmay, hor⟩ => ⟨hmay, hor.elim hloud fun ⟨out, hout⟩ =>
      absurd hout (hdone out)⟩, hmay, hfits⟩
  cases hmove with
  | look hdirect =>
    obtain ⟨hmay, hfits⟩ := (h.calm False.elim (by simp)).look ht hdirect
    exact keep (by simp) False.elim hmay hfits
  | @answer args stdin hcommand =>
    obtain ⟨⟨attr, r, x, entries, hat⟩, args', stdin', hcommand', hdry⟩ := h.fits
    obtain ⟨rfl, rfl⟩ := Command.rm.inj (hcommand.symm.trans hcommand')
    unfold answered
    split
    · rename_i hanswer
      exact keep (by simp) False.elim (fun hlate => absurd hlate (not_late_of_confirm hanswer))
        trivial
    · exact keep (by simp) False.elim False.elim trivial
    · rename_i hanswer
      refine keep (by simp) False.elim (fun _ => ?_) ⟨args, stdin, hcommand⟩
      have hsame := (h.calm False.elim (by simp)).objects []
      rw [List.append_nil, hat] at hsame
      unfold MayChange
      rw [hcommand]
      exact ⟨hdry, hanswer, attr, r, x, entries, hsame.symm⟩
  | blocked e hgoal =>
    unfold goal at hgoal
    split at hgoal
    · exact keep (by simp) (fun _ => .inl trivial) (fun _ => h.may trivial) trivial
    · exact keep (by simp) False.elim False.elim trivial
    · exact keep (by simp) False.elim False.elim not_false
    · exact keep (by simp) False.elim False.elim not_false
    · cases hgoal
  | made hcommand hdir =>
    exact keep (by simp) (fun _ => .inl trivial) (fun _ => h.may trivial)
      ⟨by simp [hcommand], hdir, fun hne => absurd rfl hne⟩
  | @call call n hat =>
    obtain ⟨hrm, ⟨attr, r, x, entries, hdir⟩, hrepo⟩ := h.fits
    refine keep (by simp) (fun _ => .inl trivial) (fun _ => h.may trivial) ⟨hrm, ?_, fun hcall =>
      (Tree.isRepo_iff_at ht hat).mp (hrepo hcall)⟩
    obtain rfl := Option.some.inj (hdir.symm.trans hat)
    rfl
  | @callFail call =>
    obtain ⟨hrm, hdir, hrepo⟩ := h.fits
    exact keep (by simp) (fun _ => loud_returned call false) (fun _ => h.may trivial)
      (fits_returned hrm hdir fun hcall => hrepo (hcall.resolve_right (by simp)))
  | removeFail e => exact keep (by simp) (fun _ => .inl trivial) (fun _ => h.may trivial) trivial
  | sweep alive =>
    exact keep (by simp) False.elim False.elim fun q hq => exists_of_mem_staleTmpPaths hq
  | skip => exact keep (by simp) False.elim False.elim fun q hq => h.fits q (.tail _ hq)
  | swept | openOld | openFail | lock | refused | clone =>
    exact keep (by simp) False.elim False.elim trivial
  | cloneFail | renameFail => exact keep (by simp) False.elim False.elim not_false
  | discardFail => exact keep (by simp) False.elim False.elim h.fits
  | @unlinkFail args pid result hcommand =>
    cases result with
    | error e => exact keep (by simp) False.elim (fun hlate => absurd hlate h.fits) trivial
    | ok out =>
      refine keep (by simp) (fun _ => .inr ⟨out, rfl⟩) False.elim ?_
      unfold Fits Achieved
      rw [hcommand]
      exact h.fits

/-! ## Steps that change the file system -/

variable (j) in
/-- The paths beside the destination. -/
def Edge : Set (List Bytes) := fun a => a ∈ j.Foot ∧ a ≠ j.place

/-- The paths beside the destination do not meet it. -/
lemma edge_apart {a : List Bytes} (ha : a ∈ j.Edge) : ¬a <+: j.place ∧ ¬j.place <+: a :=
  ⟨not_prefix_of_mem_foot ha.1 place_mem_foot ha.2,
    not_prefix_of_mem_foot place_mem_foot ha.1 ha.2.symm⟩

/-- The lock path is beside the destination. -/
lemma lockPath_mem_edge {args : GetArgs} {pid : ℕ} (h : j.command = .get args pid) :
    j.lockPath ∈ j.Edge := ⟨lockPath_mem_foot h, lockPath_ne_place⟩

/-- The temporary directory is beside the destination. -/
lemma tmpPath_mem_edge {args : GetArgs} {pid : ℕ} (h : j.command = .get args pid) :
    j.tmpPath pid ∈ j.Edge := ⟨tmpPath_mem_foot h, tmpOf_ne_place _⟩

/-- A step beside the destination changes something there only. -/
lemma touches_of_beside {args : GetArgs} {pid : ℕ} {a b : Stage} (h : Beside j args pid t t' a b)
    (hcommand : j.command = .get args pid) (hfits : j.Fits t a) (ht' : t'.Accessible) :
    Touches j.Edge t t' := by
  have hstale : ∀ {q stale}, j.Fits t (.cleaning (q :: stale)) → q ∈ j.Edge := by
    intro q stale hfits
    obtain ⟨suffix, hsuffix, rfl⟩ := hfits q List.mem_cons_self
    exact ⟨.inr ⟨args, pid, hcommand, .inr ⟨suffix, .inr hsuffix, rfl⟩⟩, tmpOf_ne_place suffix⟩
  cases h with
  | mkdir hgoal hq hnone hputs =>
    exact .single ⟨ht', j.lockPath, lockPath_mem_edge hcommand,
      hputs.sameBut_below hnone (hq.trans (List.prefix_append ..))⟩
  | cleanPart hdir htype hputs => exact .of_puts (hstale hfits) ht' hputs
  | clean hfile hputs => exact .of_puts (hstale hfits) ht' hputs
  | openNew hnone hputs => exact .of_puts (lockPath_mem_edge hcommand) ht' hputs
  | fill hputs => exact .of_puts (tmpPath_mem_edge hcommand) ht' hputs
  | cloned hclone hputs => exact .of_puts (tmpPath_mem_edge hcommand) ht' hputs
  | discardPart hdir htype hputs => exact .of_puts (tmpPath_mem_edge hcommand) ht' hputs
  | discard hfile hputs => exact .of_puts (tmpPath_mem_edge hcommand) ht' hputs
  | unlink hdir hputs => exact .of_puts (lockPath_mem_edge hcommand) ht' hputs

/-- A step at the destination changes something at the job's paths only. -/
lemma touches_of_within {a b : Stage} (h : Within j t t' a b) (ht' : t'.Accessible) :
    Touches j.Foot t t' := by
  cases h with
  | mkdir hgoal hq hnone hputs =>
    exact .single ⟨ht', j.place, place_mem_foot, hputs.sameBut_below hnone hq⟩
  | work htype hputs => exact .of_puts place_mem_foot ht' hputs
  | returned hrun hputs => exact .of_puts place_mem_foot ht' hputs
  | removePart htype hputs => exact .of_puts place_mem_foot ht' hputs
  | remove hputs => exact .of_puts place_mem_foot ht' hputs
  | rename hcommand hat htype hvacant hputs ht₁ hputs' =>
    exact (Touches.of_puts place_mem_foot ht₁ hputs).trans
      (Touches.of_puts (tmpPath_mem_foot hcommand) ht' hputs')

/-- A step changes something at the job's paths only. -/
lemma touches_of_step {a b : Stage} (h : Step j a t b t') (hfits : j.Fits t a)
    (ht' : t'.Accessible) : Touches j.Foot t t' := by
  cases h with
  | move => exact .refl
  | beside hcommand h => exact (touches_of_beside h hcommand hfits ht').mono fun _ ha => ha.1
  | within h => exact touches_of_within h ht'

/-- Changes that do not meet the destination leave it as it is, and listed as it is. -/
lemma Same.touches (h : j.Same roots t₀ t) (ht : t.Accessible) (htouches : Touches F t t')
    (hF : ∀ a ∈ F, ¬a <+: j.place ∧ ¬j.place <+: a)
    (hroots : ∀ r ∈ roots, ∀ a ∈ F, ¬a <+: r ∧ ∀ s, a = r ++ s → Conventional s) :
    j.Same roots t₀ t' where
  objects x := (htouches.at?_append hF x).trans (h.objects x)
  listed wildmatch exclude r hr q hq :=
    (htouches.mem_catalog_iff ht (hroots r hr) fun a ha haq =>
      (List.prefix_or_prefix_of_prefix haq hq).elim (hF a ha).1 (hF a ha).2).trans
      (h.listed wildmatch exclude r hr q hq)

/-- A repository is one as long as the directory is the same. -/
lemma Present.of_at? (h : j.Present t) (ht : t.Accessible) (ht' : t'.Accessible)
    (hat : t'.root.at? j.place = t.root.at? j.place) : j.Present t' := by
  obtain ⟨⟨attr, r, x, entries, hdir⟩, hrepo⟩ := h
  have hdir' := hat.trans hdir
  exact ⟨⟨attr, r, x, entries, hdir'⟩, (Tree.isRepo_congr ht ht' hdir hdir').mpr hrepo⟩

/-- A step beside the destination keeps the invariant. -/
lemma Inv.beside {args : GetArgs} {pid : ℕ} {a b : Stage} (h : j.Inv roots t₀ a t)
    (hgit : o.git.Works)
    (hroots : ∀ r ∈ roots, j.Clean r) (ht : t.Accessible) (ht' : t'.Accessible)
    (hcommand : j.command = .get args pid) (hstep : Beside j args pid t t' a b) :
    j.Inv roots t₀ b t' := by
  have htouches := touches_of_beside hstep hcommand h.fits ht'
  have hplace : t'.root.at? j.place = t.root.at? j.place := by
    have hat := htouches.at?_append (fun a ha => edge_apart ha) []
    rwa [List.append_nil] at hat
  have hsame : j.Same roots t₀ t → j.Same roots t₀ t' := fun hsame =>
    hsame.touches ht htouches (fun a ha => edge_apart ha) fun r hr a ha =>
      ⟨(hroots r hr).above a ha.1, fun s hs => (hroots r hr).conventional ha.1 hs⟩
  have keep : ∀ {b : Stage}, ¬Loud a → (∀ out, a ≠ .done (.ok out)) → ¬Loud b → j.Fits t' b →
      j.Inv roots t₀ b t' := fun hloud hdone hloud' hfits =>
    ⟨.inl (hsame (h.calm hloud hdone)), fun hb => absurd hb hloud', hfits⟩
  cases hstep with
  | mkdir hgoal hq hnone hputs =>
    unfold goal at hgoal
    split at hgoal
    · rename_i hcreate
      cases hcommand.symm.trans hcreate
    · exact keep not_false (by simp) not_false trivial
    · exact keep not_false (by simp) not_false trivial
    · refine keep not_false (by simp) not_false ?_
      -- Nothing is made on the way to what exists.
      intro args pid hcommand
      obtain ⟨m, hat, -⟩ := h.fits args pid hcommand
      have hway : _ <+: j.tmpPath pid := hq.trans (List.prefix_append ..)
      rw [Tree.at?_eq_none_of_prefix hnone hway] at hat
      cases hat
    · cases hgoal
  | cleanPart hdir htype hputs => exact keep not_false (by simp) not_false h.fits
  | clean hfile hputs =>
    exact keep not_false (by simp) not_false fun q hq => h.fits q (.tail _ hq)
  | openNew hnone hputs => exact keep not_false (by simp) not_false trivial
  | fill hputs => exact keep not_false (by simp) not_false trivial
  | @cloned n new success hclone hputs =>
    cases success with
    | false => exact keep not_false (by simp) not_false not_false
    | true =>
      refine keep not_false (by simp) not_false fun args' pid' hcommand' => ?_
      obtain ⟨rfl, rfl⟩ := Command.get.inj (hcommand.symm.trans hcommand')
      obtain ⟨m, rfl, -⟩ := hgit.clone_dir _ _ _ _ hclone
      refine ⟨m, hputs.at?_self, ?_⟩
      cases hbare : args.bare with
      | true => exact .inl (bareName_place (by rw [hcommand]; exact hbare))
      | false => exact .inr (hgit.clone_git args.cloneOptions _ _ _ hbare hclone)
  | discardPart hdir htype hputs => exact keep not_false (by simp) not_false h.fits
  | discard hfile hputs => exact keep not_false (by simp) not_false h.fits
  | @unlink result hdir hputs =>
    cases result with
    | error e => exact keep not_false (by simp) h.fits trivial
    | ok out =>
      refine ⟨h.same.imp hsame fun ⟨hmay, _⟩ => ⟨hmay, .inr ⟨out, rfl⟩⟩, False.elim, ?_⟩
      unfold Fits Achieved
      rw [hcommand]
      exact Present.of_at? h.fits ht ht' hplace

/-- A step at the destination keeps the invariant. -/
lemma Inv.within {a b : Stage} (h : j.Inv roots t₀ a t) (hgit : o.git.Works) (ht' : t'.Accessible)
    (hstep : Within j t t' a b) : j.Inv roots t₀ b t' := by
  have change : ∀ {b : Stage}, j.MayChange t₀ → (Loud b ∨ ∃ out, b = .done (.ok out)) →
      j.Fits t' b → j.Inv roots t₀ b t' := fun hmay hloud hfits =>
    ⟨.inr ⟨hmay, hloud⟩, fun _ => hmay, hfits⟩
  cases hstep with
  | mkdir hgoal hq hnone hputs => exact change (h.may trivial) (.inl trivial) trivial
  | work htype hputs => exact change (h.may trivial) (.inl trivial) h.fits
  | @returned call n n' success hrun hputs =>
    obtain ⟨hrm, hdir, hrepo⟩ := h.fits
    have hdir' := hgit.run_dir _ _ _ _ hrun hdir
    refine change (h.may trivial) (loud_returned call success)
      (fits_returned hrm ?_ fun hcall => ?_)
    · obtain ⟨attr, r, x, entries, heq⟩ := Node.exists_dir_of_fileType hdir'
      exact ⟨attr, r, x, entries, hputs.at?_self.trans heq⟩
    · refine (present_of_at? ht' hputs.at?_self hdir' ?_).2
      by_cases hinit : call = .init
      · obtain rfl := hcall.resolve_left (not_not.mpr hinit)
        subst hinit
        cases hbare : j.command.bare with
        | true => exact .inl (bareName_place hbare)
        | false =>
          rw [hbare] at hrun
          exact .inr (hgit.init_git _ _ _ hrun)
      · exact (hrepo hinit).imp_right (hgit.run_git _ _ _ _ hrun)
  | removePart htype hputs => exact change (h.may trivial) (.inl trivial) h.fits
  | remove hputs =>
    obtain ⟨args, stdin, hcommand⟩ := h.fits
    refine change (h.may trivial) (.inr ⟨_, rfl⟩) ?_
    unfold Fits Achieved
    rw [hcommand]
    exact .inr hputs.at?_self
  | @rename args pid m t₁ hcommand hat htype hvacant hputs ht₁ hputs' =>
    have hmay : j.MayChange t₀ := by
      unfold MayChange
      rw [hcommand]
      exact .inr ((h.calm not_false (by simp)).vacant hvacant)
    refine change hmay (.inl trivial) ?_
    obtain ⟨m', hat', hrepo⟩ := h.fits args pid hcommand
    obtain rfl : m = m' := Option.some.inj (hat.symm.trans hat')
    -- The temporary directory goes, and the destination stays.
    have hstay := (Touches.of_puts (tmpPath_mem_edge hcommand) ht' hputs').at?_append
      (fun a ha => edge_apart ha) []
    rw [List.append_nil] at hstay
    exact present_of_at? ht' (hstay.trans hputs.at?_self) htype hrepo

/-- A step of a job keeps its invariant. -/
lemma Inv.step {a b : Stage} (h : j.Inv roots t₀ a t) (hgit : o.git.Works)
    (hroots : ∀ r ∈ roots, j.Clean r) (ht : t.Accessible) (ht' : t'.Accessible)
    (hstep : Step j a t b t') : j.Inv roots t₀ b t' := by
  cases hstep with
  | move hmove => exact h.move ht hmove
  | beside hcommand hstep => exact h.beside hgit hroots ht ht' hcommand hstep
  | within hstep => exact h.within hgit ht' hstep

/-- A step of another job keeps the invariant. -/
lemma Inv.other {a : Stage} (h : j.Inv roots t₀ a t) (ht : t.Accessible)
    (htouches : Touches F t t') (hF : ∀ a ∈ F, ∀ b ∈ j.Foot, ¬a <+: b ∧ ¬b <+: a)
    (hroots : ∀ r ∈ roots, ∀ a ∈ F, ¬a <+: r ∧ ∀ s, a = r ++ s → Conventional s) :
    j.Inv roots t₀ a t' := by
  have hat : ∀ b ∈ j.Foot, t'.root.at? b = t.root.at? b := by
    intro b hb
    have hat := htouches.at?_append (fun a ha => hF a ha b hb) []
    rwa [List.append_nil] at hat
  have hdir : t.IsDir j.place → t'.IsDir j.place := by
    rintro ⟨attr, r, x, entries, hdir⟩
    exact ⟨attr, r, x, entries, (hat _ place_mem_foot).trans hdir⟩
  have hpresent : j.Present t → j.Present t' := fun hpresent =>
    hpresent.of_at? ht (htouches.accessible ht) (hat _ place_mem_foot)
  refine ⟨h.same.imp_left fun hsame => hsame.touches ht htouches (fun a ha =>
    hF a ha _ place_mem_foot) hroots, h.may, ?_⟩
  cases a with
  | calling call =>
    obtain ⟨hrm, hbefore, hrepo⟩ := h.fits
    exact ⟨hrm, hdir hbefore, fun hcall => (hpresent ⟨hbefore, hrepo hcall⟩).2⟩
  | asking => exact ⟨hdir h.fits.1, h.fits.2⟩
  | cloned =>
    intro args pid hcommand
    obtain ⟨m, hm, hrepo⟩ := h.fits args pid hcommand
    exact ⟨m, (hat _ (tmpPath_mem_foot hcommand)).trans hm, hrepo⟩
  | unlocking result =>
    cases result with
    | ok out => exact hpresent h.fits
    | error e => exact h.fits
  | done result =>
    cases result with
    | ok out =>
      have hfits : j.Achieved t := h.fits
      show j.Achieved t'
      unfold Achieved at hfits ⊢
      split at hfits
      · exact hfits.imp_right (hat _ place_mem_foot).trans
      · exact hpresent hfits
    | error e => exact trivial
  | _ => exact h.fits

end Job

end Commands

end Scap
