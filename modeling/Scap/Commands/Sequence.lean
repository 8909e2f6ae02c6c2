import Scap.Commands.Together

/-!
# Targets one after another

`get::run` without `--parallel` (`src/cmd/get.rs`): the targets are those of the command line or the
lines of stdin, and the run ends at the first of them that fails.  What has been cloned before that
stays, and what comes after it has not been touched (`get_in_order`).
-/

namespace Scap

namespace Commands

open Config (CommandError PathBuf)

variable {o : Outside}

/-! ## The run -/

/-- A job takes steps, and nobody else does. -/
abbrev Job.Steps (j : Job o) : Stage × Tree → Stage × Tree → Prop :=
  Relation.ReflTransGen fun a b => Step j a.1 a.2 b.1 b.2 ∧ b.2.Accessible

/-- A job goes on. -/
lemma Job.Steps.act {j : Job o} {start : Stage × Tree} {a b : Stage} {t t' : Tree}
    (h : j.Steps start (a, t)) (hstep : Step j a t b t') (ht' : t'.Accessible) :
    j.Steps start (b, t') :=
  h.tail ⟨hstep, ht'⟩

/-- A job that runs alone ends with a result and leaves a tree. -/
def Job.Alone (j : Job o) (t : Tree) (result : Except RunError Bytes) (t' : Tree) : Prop :=
  j.Steps (.ready, t) (.done result, t')

/-- Why a run of `get` fails. -/
inductive GetError where
  /-- Before the first target. -/
  | run (e : RunError)
  /-- `failed to get` this target. -/
  | target (target : Str) (e : RunError)

/-- `collect_targets`, with the lines of stdin unless that is a terminal. -/
def collectTargets (given : List Str) (stdin : Option (List (Except RunError Str))) :
    Except RunError (List Str) :=
  if given ≠ [] then .ok given
  else
    match stdin with
    | none => .ok []
    | some lines => (lines.mapM id).map fun lines => (lines.map trim).filter (· ≠ [])

section

variable (o) (args : GetArgs) (pid : ℕ)

/-- The command for one of the targets. -/
def getCommand (target : Str) : Command := .get { args with target := target } pid

/-- The loop of `run` over the targets. -/
inductive GetLoop : List Str → Tree → Except GetError Unit → Tree → Prop
  | nil (t : Tree) : GetLoop [] t (.ok ()) t
  | cons {target : Str} {targets : List Str} {t t₁ t' : Tree} {out : Bytes}
      {result : Except GetError Unit} (j : Job o) : j.command = getCommand args pid target →
      j.Alone t (.ok out) t₁ → GetLoop targets t₁ result t' →
      GetLoop (target :: targets) t result t'
  | fail {target : Str} {targets : List Str} {t t' : Tree} {e : RunError} (j : Job o) :
      j.command = getCommand args pid target → j.Alone t (.error e) t' →
      GetLoop (target :: targets) t (.error (.target target e)) t'
  | nowhere {target : Str} {targets : List Str} {t : Tree} {e : CommandError} :
      (getCommand args pid target).dest o = .error e →
      GetLoop (target :: targets) t (.error (.target target (.command e))) t

/-- `run`, one target after another. -/
def GetRun (given : List Str) (stdin : Option (List (Except RunError Str))) (t : Tree)
    (result : Except GetError Unit) (t' : Tree) : Prop :=
  match validateVcs o.debug args.vcs, collectTargets given stdin with
  | .error e, _ => result = .error (.run (.command e)) ∧ t' = t
  | .ok (), .error e => result = .error (.run e) ∧ t' = t
  | .ok (), .ok [] => result = .error (.run (.command (.bail
      "no target args specified. see `scap get -h` for more details".toList))) ∧ t' = t
  | .ok (), .ok targets => GetLoop o args pid targets t result t'

end

/-! ## One job alone -/

variable {args : GetArgs} {pid : ℕ} {t t₁ t' : Tree}

/-- The command decides the destination. -/
lemma Job.eq_of_command {j j' : Job o} (h : j.command = j'.command) : j = j' := by
  obtain ⟨command, dest, above, name, leads, placed⟩ := j
  obtain ⟨command', dest', above', name', leads', placed'⟩ := j'
  obtain rfl : command = command' := h
  obtain rfl : dest = dest' := Except.ok.inj (leads.symm.trans leads')
  obtain ⟨rfl, hname⟩ := List.append_inj' (Option.some.inj (placed.symm.trans placed')) rfl
  obtain rfl : name = name' := by simpa using hname
  rfl

/-- A job that runs alone changes something at its paths only, and keeps its invariant. -/
lemma Job.Alone.inv {j : Job o} {result : Except RunError Bytes} (h : j.Alone t result t')
    (hgit : o.git.Works) (ht : t.Accessible) :
    t'.Accessible ∧ Touches j.Foot t t' ∧ j.Inv ∅ t (.done result) t' := by
  have hrun : ∀ b : Stage × Tree, j.Steps (.ready, t) b →
      b.2.Accessible ∧ Touches j.Foot t b.2 ∧ j.Inv ∅ t b.1 b.2 := by
    intro b hb
    induction hb with
    | refl => exact ⟨ht, .refl, .inl ⟨fun _ => rfl, fun _ _ _ h => absurd h (by simp)⟩,
        False.elim, trivial⟩
    | tail _ hstep ih =>
      obtain ⟨hstep, hb⟩ := hstep
      obtain ⟨hc, htouches, hinv⟩ := ih
      exact ⟨hb, htouches.trans (Job.touches_of_step hstep hinv.fits hb),
        hinv.step hgit (fun _ h => absurd h (by simp)) hc hb hstep⟩
  exact hrun _ h

/-! ## All targets -/

section

variable (o args pid)

/-- No job of a target meets that of a later one. -/
def TargetsApart (targets : List Str) : Prop :=
  targets.Pairwise fun target target' => ∀ j j' : Job o, j.command = getCommand args pid target →
    j'.command = getCommand args pid target' → j.Apart j'

/-- The paths at or below which the jobs of the targets change something. -/
def targetsFoot (targets : List Str) : Set (List Bytes) := fun a =>
  ∃ target ∈ targets, ∃ j : Job o, j.command = getCommand args pid target ∧ a ∈ j.Foot

/-- There is a repository where the target leads. -/
def Got (t : Tree) (target : Str) : Prop :=
  ∃ j : Job o, j.command = getCommand args pid target ∧ j.Present t

/-- What a run of the loop leaves. -/
structure InOrder (targets : List Str) (t : Tree) (result : Except GetError Unit) (t' : Tree) :
    Prop where
  accessible : t'.Accessible
  touches : Touches (targetsFoot o args pid targets) t t'
  /-- A destination that must not be changed has not been. -/
  kept : ∀ target ∈ targets, ∀ j : Job o, j.command = getCommand args pid target →
    ¬j.MayChange t → j.Same ∅ t t'
  /-- The targets up to the one that failed have been cloned, and those after it left alone. -/
  parted : ∃ before after, targets = before ++ after ∧
    (∀ target ∈ before, Got o args pid t' target) ∧
    match result with
    | .ok () => after = []
    | .error (.run _) => False
    | .error (.target target e) => ∃ rest, after = target :: rest ∧
      ∀ other ∈ after, (other = target → ¬e.Late) → ∀ j : Job o,
        j.command = getCommand args pid other → j.Same ∅ t t'

end

/-- What stays the same twice stays the same. -/
lemma Job.Same.trans {j : Job o} (h : j.Same ∅ t t₁) (h' : j.Same ∅ t₁ t') : j.Same ∅ t t' :=
  ⟨fun x => (h'.objects x).trans (h.objects x), fun _ _ _ h => absurd h (by simp)⟩

/-- What a job leaves alone stays as it was. -/
lemma Job.Apart.same {j j' : Job o} (h : j.Apart j') (ht : t.Accessible)
    (htouches : Touches j.Foot t t') : j'.Same ∅ t t' :=
  Job.Same.touches ⟨fun _ => rfl, fun _ _ _ h => absurd h (by simp)⟩ ht htouches
    (fun a ha => h a ha _ Job.place_mem_foot) fun _ h => absurd h (by simp)

/-- What a job may change later it may change now. -/
lemma Job.Same.mayChange {j : Job o} {target : Str} (h : j.Same ∅ t t₁)
    (hcommand : j.command = getCommand args pid target) (hmay : j.MayChange t₁) :
    j.MayChange t := by
  unfold Job.MayChange at hmay ⊢
  rw [hcommand] at hmay ⊢
  exact hmay.imp_right h.vacant

/-- What a job that ends has not been allowed to change, or has failed before, is as it was. -/
lemma Job.Alone.same {j : Job o} {result : Except RunError Bytes} (h : j.Alone t result t')
    (hgit : o.git.Works) (ht : t.Accessible)
    (hcalm : ¬j.MayChange t ∨ ∃ e, result = .error e ∧ ¬e.Late) : j.Same ∅ t t' := by
  obtain ⟨-, -, hinv⟩ := h.inv hgit ht
  refine hinv.same.resolve_right ?_
  rintro ⟨hmay, hloud⟩
  rcases hcalm with hnot | ⟨e, rfl, hlate⟩
  · exact hnot hmay
  · rcases hloud with hloud | ⟨out, hout⟩
    · exact hlate hloud
    · cases hout

/-- A repository stays one while others do not come near it. -/
lemma Got.touches {target : Str} {F : Set (List Bytes)} (h : Got o args pid t target)
    (ht : t.Accessible) (htouches : Touches F t t')
    (hF : ∀ j : Job o, j.command = getCommand args pid target →
      ∀ a ∈ F, ¬a <+: j.place ∧ ¬j.place <+: a) : Got o args pid t' target := by
  obtain ⟨j, hcommand, hpresent⟩ := h
  have hat := htouches.at?_append (hF j hcommand) []
  rw [List.append_nil] at hat
  exact ⟨j, hcommand, hpresent.of_at? ht (htouches.accessible ht) hat⟩

/-- The loop clones the targets in their order, up to the first that fails. -/
lemma GetLoop.inOrder {targets : List Str} {result : Except GetError Unit}
    (h : GetLoop o args pid targets t result t') (hgit : o.git.Works) (ht : t.Accessible)
    (hapart : TargetsApart o args pid targets) : InOrder o args pid targets t result t' := by
  have hself : ∀ {j : Job o} {t : Tree}, j.Same ∅ t t := fun {j t} =>
    ⟨fun _ => rfl, fun _ _ _ h => absurd h (by simp)⟩
  induction h with
  | nil t => exact ⟨ht, .refl, by simp, [], [], rfl, by simp, rfl⟩
  | @cons target targets t t₁ t' out result j hcommand halone _ ih =>
    obtain ⟨hhead, hapart⟩ := List.pairwise_cons.mp hapart
    obtain ⟨ht₁, htouches, hinv⟩ := halone.inv hgit ht
    obtain ⟨ht', htouches', hkept, before, after, rfl, hbefore, hafter⟩ := ih ht₁ hapart
    have hrest : ∀ target' ∈ before ++ after, ∀ j' : Job o,
        j'.command = getCommand args pid target' → j'.Same ∅ t t₁ := fun target' h' j' hcommand' =>
      (hhead target' h' j j' hcommand hcommand').same ht htouches
    have hfoot : ∀ a ∈ targetsFoot o args pid (before ++ after),
        ¬a <+: j.place ∧ ¬j.place <+: a := by
      rintro a ⟨target', h', j', hcommand', ha⟩
      exact (hhead target' h' j j' hcommand hcommand' _ Job.place_mem_foot a ha).symm
    have hown : j.Same ∅ t₁ t' := Job.Same.touches hself ht₁ htouches' hfoot fun _ h =>
      absurd h (by simp)
    refine ⟨ht', ?_, ?_, target :: before, after, rfl, ?_, ?_⟩
    · refine (htouches.mono fun a ha => ?_).trans (htouches'.mono ?_)
      · exact ⟨target, List.mem_cons_self, j, hcommand, ha⟩
      · rintro a ⟨target', h', hj'⟩
        exact ⟨target', List.mem_cons_of_mem _ h', hj'⟩
    · intro target' h' j' hcommand' hmay
      rcases List.mem_cons.mp h' with rfl | h'
      · obtain rfl : j' = j := Job.eq_of_command (hcommand'.trans hcommand.symm)
        exact (halone.same hgit ht (.inl hmay)).trans hown
      · have hsame := hrest target' h' j' hcommand'
        exact hsame.trans (hkept target' h' j' hcommand' fun hmay' =>
          hmay (hsame.mayChange hcommand' hmay'))
    · refine List.forall_mem_cons.mpr ⟨?_, hbefore⟩
      have hpresent : j.Present t₁ := Job.Achieved.present (j := j) hinv.fits (by
        simp [hcommand, getCommand])
      refine Got.touches ⟨j, hcommand, hpresent⟩ ht₁ htouches' fun j' hcommand' => ?_
      obtain rfl : j' = j := Job.eq_of_command (hcommand'.trans hcommand.symm)
      exact hfoot
    · cases result with
      | ok _ => exact hafter
      | error e =>
        cases e with
        | run e => exact hafter
        | target failed e =>
          obtain ⟨rest, rfl, hall⟩ := hafter
          refine ⟨rest, rfl, fun other hother hlate j' hcommand' => ?_⟩
          exact (hrest other (List.mem_append_right _ hother) j' hcommand').trans
            (hall other hother hlate j' hcommand')
  | @fail target targets t t' e j hcommand halone =>
    obtain ⟨hhead, -⟩ := List.pairwise_cons.mp hapart
    obtain ⟨ht', htouches, -⟩ := halone.inv hgit ht
    have hown : (¬j.MayChange t ∨ ¬e.Late) → j.Same ∅ t t' := fun hcalm =>
      halone.same hgit ht (hcalm.imp_right fun hlate => ⟨e, rfl, hlate⟩)
    have hrest : ∀ target' ∈ targets, ∀ j' : Job o,
        j'.command = getCommand args pid target' → j'.Same ∅ t t' := fun target' h' j' hcommand' =>
      (hhead target' h' j j' hcommand hcommand').same ht htouches
    refine ⟨ht', htouches.mono fun a ha => ⟨target, List.mem_cons_self, j, hcommand, ha⟩, ?_, [],
      target :: targets, rfl, by simp, targets, rfl, ?_⟩
    · intro target' h' j' hcommand' hmay
      rcases List.mem_cons.mp h' with rfl | h'
      · obtain rfl : j' = j := Job.eq_of_command (hcommand'.trans hcommand.symm)
        exact hown (.inl hmay)
      · exact hrest target' h' j' hcommand'
    · intro other hother hlate j' hcommand'
      rcases List.mem_cons.mp hother with rfl | hother
      · obtain rfl : j' = j := Job.eq_of_command (hcommand'.trans hcommand.symm)
        exact hown (.inr (hlate rfl))
      · exact hrest other hother j' hcommand'
  | @nowhere target targets t e hdest =>
    exact ⟨ht, .refl, fun _ _ _ _ _ => hself, [], target :: targets, rfl, by simp, targets, rfl,
      fun _ _ _ _ _ => hself⟩

/-- A run ends before its first target, or is a run of the loop. -/
lemma GetRun.cases {given : List Str} {stdin : Option (List (Except RunError Str))}
    {result : Except GetError Unit} (h : GetRun o args pid given stdin t result t') :
    (∃ e, result = .error (.run e)) ∧ t' = t ∨
      ∃ targets, collectTargets given stdin = .ok targets ∧
        GetLoop o args pid targets t result t' := by
  unfold GetRun at h
  split at h
  · exact .inl ⟨⟨_, h.1⟩, h.2⟩
  · exact .inl ⟨⟨_, h.1⟩, h.2⟩
  · exact .inl ⟨⟨_, h.1⟩, h.2⟩
  · exact .inr ⟨_, ‹_›, h⟩

/-- `get alice/a alice/b`. -/
def sampleGetArgs : GetArgs := ⟨false, false, false, none, false, none, false, none, []⟩

/-- The job of one of the two targets. -/
def sampleGetJob (second : Bool) : Job sampleOutside where
  command := getCommand sampleGetArgs 1 ("alice/".toList ++ if second then ['b'] else ['a'])
  dest := (sampleJob second).dest
  above := (sampleJob second).above
  name := (sampleJob second).name
  leads := by cases second <;> rfl
  placed := by cases second <;> rfl

/-- The lock file of `alice/a`. -/
def sampleLock : Bytes × Bool × Node :=
  (ascii ".scap-lock-a".toList, true,
    .file ⟨0, 0, 0o644, 0, 0⟩ .regularFile ⟨by decide, by decide, by decide⟩)

/-- The temporary directory of `alice/a`, once it is cloned to. -/
def sampleTmp : Bytes × Bool × Node := (ascii "a.tmp-1".toList, true, sampleRepo)

/-- The repository `alice/a`. -/
def sampleCloned : Bytes × Bool × Node := (ascii ['a'], true, sampleRepo)

/-- The entries that come and go while `alice/a` is cloned are accessible. -/
lemma sampleOpen_entry {e : Bytes × Bool × Node}
    (he : e = sampleLock ∨ e = sampleTmp ∨ e = sampleCloned) :
    ValidName e.1 ∧ SampleOpen e.2.2 := by
  have hlock : SampleOpen sampleLock.2.2 := by
    intro p attr r x entries hp
    cases p <;> cases hp
  rcases he with rfl | rfl | rfl
  · exact ⟨by decide, hlock⟩
  · exact ⟨by decide, sampleOpen_repo⟩
  · exact ⟨by decide, sampleOpen_repo⟩

/-- The lock file is there; then the clone as well; then that under both names; then under its
own. -/
def sampleLocked : Tree := sampleTree [sampleLock] (sampleOpen_dir (by decide) fun e he =>
  sampleOpen_entry (by simp at he; tauto))

/-- The tree with the lock file and the temporary directory. -/
def sampleFilled : Tree := sampleTree [sampleLock, sampleTmp]
  (sampleOpen_dir (by decide) fun e he => sampleOpen_entry (by simp at he; tauto))

/-- The tree with the clone at its destination and still under its temporary name. -/
def sampleDoubled : Tree := sampleTree [sampleLock, sampleTmp, sampleCloned]
  (sampleOpen_dir (by decide) fun e he => sampleOpen_entry (by simp at he; tauto))

/-- The tree with the lock file and the clone at its destination. -/
def sampleRenamed : Tree := sampleTree [sampleLock, sampleCloned]
  (sampleOpen_dir (by decide) fun e he => sampleOpen_entry (by simp at he; tauto))

/-- A job looks, finds nothing there and no directory to remove, and comes to the lock. -/
lemma sample_opening (second : Bool) {t : Tree} (ht : t.Accessible)
    (hdirect : Direct t (sampleGetJob second).place)
    (hlook : (sampleGetJob second).look t = .sweeping)
    (hsweep : (sampleGetJob second).staleTmpPaths (fun _ => false) t = []) :
    (sampleGetJob second).Steps (.ready, t) (.opening, t) := by
  have hsweeping := Job.Steps.act .refl (.move (hlook ▸ Move.look hdirect)) ht
  have hcleaning := hsweeping.act (.move (hsweep ▸ Move.sweep fun _ => false)) ht
  exact hcleaning.act (.move .swept) ht

/-- `alice/a` is cloned: the lock file is made, the clone appears at the temporary path and is
renamed, and the lock path is removed. -/
lemma alone_sampleGetJob : (sampleGetJob false).Alone sampleBefore (.ok []) sampleAfter := by
  let args : GetArgs := { sampleGetArgs with target := "alice/".toList ++ ['a'] }
  have hcommand : (sampleGetJob false).command = .get args 1 := rfl
  have hopening := sample_opening false (accessible_sampleTree sampleOpen_empty)
    (direct_sampleTree sampleOpen_empty (by rfl)) (by rfl) (by rfl)
  have hopen : Beside (sampleGetJob false) args 1 sampleBefore sampleLocked
      .opening .opened :=
    .openNew (by rfl) (.inr ⟨clear_sampleTree _ _, nofun, sampleStamp, by rfl⟩)
  have hclone : Beside (sampleGetJob false) args 1 sampleLocked sampleFilled
      (.filling none) (if true then .cloned else .discarding .clone) :=
    .cloned rfl (.inr ⟨clear_sampleTree _ _, nofun, sampleStamp, by rfl⟩)
  have hdouble : sampleFilled.Puts sampleDoubled (sampleGetJob false).place (some sampleRepo) :=
    .inr ⟨clear_sampleTree _ _, nofun, sampleStamp, by rfl⟩
  have hrename : Within (sampleGetJob false) sampleFilled sampleRenamed .cloned
      (.unlocking (.ok [])) :=
    .rename hcommand (by rfl) rfl (.inl (by rfl)) hdouble (accessible_sampleTree _)
      (.inr ⟨clear_sampleTree _ _, nofun, sampleStamp, by rfl⟩)
  have hlock : sampleRenamed.root.at? (sampleGetJob false).lockPath = some sampleLock.2.2 := by rfl
  have hunlink : Beside (sampleGetJob false) args 1 sampleRenamed sampleAfter
      (.unlocking (.ok [])) (.done (.ok [])) :=
    .unlink (fun ⟨_, _, _, _, hdir⟩ => by cases hlock.symm.trans hdir)
      (.inr ⟨clear_sampleTree _ _, nofun, sampleStamp, by rfl⟩)
  have hopened := hopening.act (.beside hcommand hopen) (accessible_sampleTree _)
  have hcloning := hopened.act (.move .lock) (accessible_sampleTree _)
  have hfilling := hcloning.act (.move (.clone hcommand)) (accessible_sampleTree _)
  have hcloned := hfilling.act (.beside hcommand hclone) (accessible_sampleTree _)
  have hrenamed := hcloned.act (.within hrename) (accessible_sampleTree _)
  exact hrenamed.act (.beside hcommand hunlink) (accessible_sampleTree _)

/-- The lock path of `alice/b` cannot be opened. -/
lemma alone_sampleGetJob_true :
    (sampleGetJob true).Alone sampleAfter (.error (.lock .ACCESS)) sampleAfter := by
  have hafter : sampleAfter.Accessible := accessible_sampleTree _
  have hopening := sample_opening true hafter (direct_sampleTree _ (by rfl)) (by rfl) (by rfl)
  exact hopening.act (.move (.openFail .ACCESS)) hafter

/-- The names at which a job of the two changes something: its lock path's, or one that begins as
its target's. -/
lemma mem_foot_sampleGetJob {second : Bool} {a : List Bytes} (h : a ∈ (sampleGetJob second).Foot) :
    ∃ x, a = (sampleJob false).above ++ [x] ∧
      (x.head? = some (if second then 0x62 else 0x61) ∨
        x = ascii (".scap-lock-".toList ++ if second then ['b'] else ['a'])) := by
  rcases h with rfl | ⟨args, pid, -, rfl | ⟨suffix, -, rfl⟩⟩
  · exact ⟨_, rfl, .inl (by cases second <;> rfl)⟩
  · exact ⟨_, rfl, .inr (by cases second <;> decide)⟩
  · refine ⟨_, rfl, .inl ?_⟩
    rw [List.append_assoc, toBytes_append]
    cases second <;> rfl

/-- The two jobs do not meet. -/
lemma apart_sampleGetJob : (sampleGetJob false).Apart (sampleGetJob true) := by
  intro a ha b hb
  obtain ⟨x, rfl, hx⟩ := mem_foot_sampleGetJob ha
  obtain ⟨y, rfl, hy⟩ := mem_foot_sampleGetJob hb
  have hne : x ≠ y := by
    rintro rfl
    rcases hx with hx | rfl
    · rcases hy with hy | rfl
      · rw [hx] at hy
        exact absurd hy (by decide)
      · exact absurd hx (by decide)
    · rcases hy with hy | hy
      · exact absurd hy (by decide)
      · exact absurd hy (by decide)
  refine ⟨fun h => hne ?_, fun h => hne ?_⟩
  · simpa using h.eq_of_length (by simp)
  · simpa using (h.eq_of_length (by simp)).symm

end Commands

end Scap
