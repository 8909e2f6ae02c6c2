import Scap.Clone.Exclusion

/-!
# What can be seen at the destination

Each process runs one worker.  What can be seen at the destination is what was there before, or the
complete output of one `git clone`, and such a clone stays (`visible_or_cloned`, `clone_stays`), in
every run in which no process starts while another is about to remove the temporary directory that
will be its own.  Process identifiers are used again, so without that condition a process can lose
files from under a clone that has just succeeded, and rename what is left (`partial_visible`).

The proof rests on `Sound`: no worker is about to remove the temporary directory of another process
that runs, and a directory whose removal has begun is nobody's but that removal's.
-/

namespace Scap

namespace Clone

open Function (update)
open Transition (StepOf replay replay_append_eq_some_iff replay_cons_eq_some_iff run_of_replay
  update_cases)

/-! ## Directories and their names -/

namespace Disk

variable {d : Disk} {suffix : Str}

/-- `rmdir` leaves the destination as it is. -/
@[simp] lemma rmdir_dest : (d.rmdir suffix).dest = d.dest := by
  unfold rmdir
  split <;> rfl

/-- `rmdir` leaves the contents of directories as they are. -/
@[simp] lemma rmdir_content : (d.rmdir suffix).content = d.content := by
  unfold rmdir
  split <;> rfl

/-- `rmdir` makes no directory. -/
@[simp] lemma rmdir_next : (d.rmdir suffix).next = d.next := by
  unfold rmdir
  split <;> rfl

/-- A name that is left after `rmdir` was there before. -/
lemma rmdir_tmp {suffix' : Str} {dir : ℕ} (h : (d.rmdir suffix).tmp suffix' = some dir) :
    d.tmp suffix' = some dir := by
  unfold rmdir at h
  split at h
  · by_cases hne : suffix' = suffix
    · subst hne
      simp at h
    · simpa only [Function.update_of_ne hne] using h
  · exact h

/-- `rmdir` leaves the other names as they are. -/
lemma rmdir_tmp_of_ne {suffix' : Str} (hne : suffix' ≠ suffix) :
    (d.rmdir suffix).tmp suffix' = d.tmp suffix' := by
  unfold rmdir
  split
  · exact Function.update_of_ne hne ..
  · rfl

/-- A disk that loses names. -/
lemma NamedOnly.mono {d' : Disk} {dir : ℕ} (h : d.NamedOnly dir suffix) (hnext : d.next ≤ d'.next)
    (htmp : ∀ {suffix'}, d'.tmp suffix' = some dir → d.tmp suffix' = some dir) :
    d'.NamedOnly dir suffix where
  old := h.old.trans_le hnext
  only h' := h.only (htmp h')

/-- Writing to a directory leaves the names in order. -/
lemma Tidy.write (h : d.Tidy) (dir : ℕ) (files : Files) : (d.write dir files).Tidy :=
  ⟨fun htmp => ⟨(h.tmpOnly htmp).old, (h.tmpOnly htmp).only⟩, h.destOld, h.apart⟩

/-- `rmdir` leaves the names in order. -/
lemma Tidy.rmdir (h : d.Tidy) (suffix : Str) : (d.rmdir suffix).Tidy where
  tmpOnly htmp := (h.tmpOnly (rmdir_tmp htmp)).mono rmdir_next.ge rmdir_tmp
  destOld hdest := by
    rw [rmdir_dest] at hdest
    rw [rmdir_next]
    exact h.destOld hdest
  apart htmp := by
    rw [rmdir_dest]
    exact h.apart (rmdir_tmp htmp)

/-- What leads to an old directory once a new one is made. -/
lemma mkdir_tmp {suffix' : Str} {dir : ℕ} (h : (d.mkdir suffix).tmp suffix' = some dir) :
    suffix' = suffix ∧ dir = d.next ∨ d.tmp suffix' = some dir := by
  rcases update_cases (· = some dir) h with ⟨hsuffix, hnext⟩ | ⟨-, hold⟩
  · exact .inl ⟨hsuffix, (Option.some.inj hnext).symm⟩
  · exact .inr hold

/-- A directory keeps its only name when another is made. -/
lemma NamedOnly.mkdir {dir : ℕ} {suffix' : Str} (h : d.NamedOnly dir suffix') :
    (d.mkdir suffix).NamedOnly dir suffix' where
  old := Nat.lt_succ_of_lt h.old
  only htmp := by
    rcases mkdir_tmp htmp with ⟨-, rfl⟩ | htmp
    · exact absurd h.old (lt_irrefl _)
    · exact h.only htmp

/-- A new directory leaves the names in order. -/
lemma Tidy.mkdir (h : d.Tidy) (suffix : Str) : (d.mkdir suffix).Tidy where
  tmpOnly {suffix' dir} htmp := by
    rcases mkdir_tmp htmp with ⟨rfl, rfl⟩ | htmp
    · refine ⟨Nat.lt_succ_self _, fun htmp' => ?_⟩
      rcases mkdir_tmp htmp' with ⟨rfl, -⟩ | htmp'
      · rfl
      · exact absurd (h.tmpOnly htmp').old (lt_irrefl _)
    · exact (h.tmpOnly htmp).mkdir
  destOld hdest := Nat.lt_succ_of_lt (h.destOld hdest)
  apart {suffix' dir} htmp hdest := by
    rcases mkdir_tmp htmp with ⟨-, rfl⟩ | htmp
    · exact absurd (h.destOld hdest) (lt_irrefl _)
    · exact h.apart htmp hdest

/-- What a successful `rename` does. -/
lemma rename_eq_some {d' : Disk} (h : d.rename suffix = some d') :
    ∃ dir, d.tmp suffix = some dir ∧ d.visible.getD [] = [] ∧
      d' = { d with dest := some dir, tmp := update d.tmp suffix none } := by
  unfold rename at h
  split at h
  · rename_i dir hdir
    split at h
    · rename_i hempty
      exact ⟨dir, hdir, hempty, (Option.some.inj h).symm⟩
    · cases h
  · cases h

/-- A name that is left after `rename` was there before, and is not the one renamed. -/
lemma rename_tmp {d' : Disk} (h : d.rename suffix = some d') {suffix' : Str} {dir : ℕ}
    (htmp : d'.tmp suffix' = some dir) : suffix' ≠ suffix ∧ d.tmp suffix' = some dir := by
  obtain ⟨_, _, _, hd'⟩ := rename_eq_some h
  rw [hd'] at htmp
  by_cases hne : suffix' = suffix
  · subst hne
    simp at htmp
  · exact ⟨hne, by simpa only [Function.update_of_ne hne] using htmp⟩

/-- `rename` leaves the names in order. -/
lemma Tidy.rename {d' : Disk} (h : d.Tidy) (hrename : d.rename suffix = some d') : d'.Tidy := by
  obtain ⟨dir, hdir, -, hd'⟩ := rename_eq_some hrename
  have hnext : d.next = d'.next := by rw [hd']
  have hdest : d'.dest = some dir := by rw [hd']
  refine ⟨fun htmp => ?_, fun h' => ?_, fun htmp h' => ?_⟩
  · exact (h.tmpOnly (rename_tmp hrename htmp).2).mono hnext.le fun htmp =>
      (rename_tmp hrename htmp).2
  · obtain rfl := Option.some.inj (hdest.symm.trans h')
    exact hnext ▸ (h.tmpOnly hdir).old
  · obtain rfl := Option.some.inj (hdest.symm.trans h')
    obtain ⟨hne, htmp⟩ := rename_tmp hrename htmp
    exact hne ((h.tmpOnly hdir).only htmp)

end Disk

/-! ## The invariant -/

namespace Stage

/-- The process is there and has not finished with the destination. -/
def active : Stage → Prop
  | idle | orphaned | ended => False
  | _ => True

/-- `git clone` has not returned success yet, and may still. -/
def early : Stage → Prop
  | idle | scanning _ _ | cleaning none _ | removing none _ _ _ => True
  | opening | opened _ | cloning _ | writing _ => True
  | _ => False

/-- The directory whose removal is under way, and the suffix it was opened by. -/
def removal : Stage → Option (ℕ × Str)
  | removing _ dir suffix _ => some (dir, suffix)
  | _ => none

/-- A directory that is being removed was to be removed. -/
lemma pending_of_removal {stage : Stage} {dir : ℕ} {suffix : Str}
    (h : stage.removal = some (dir, suffix)) : suffix ∈ stage.pending := by
  cases stage <;> cases h
  exact List.mem_cons_self

end Stage

/-- Each process runs one worker. -/
def OneWorker : Event → Prop
  | .act w _ => w.thread = 0
  | _ => True

/-- No process starts while another is about to remove the temporary directory that will be its
own. -/
def StartsClean (pid : ℕ → ℕ) (s : State) : Event → Prop
  | .start p => ∀ w : Worker, w.proc ≠ p → decimal (pid p) ∉ (s.stage w).pending
  | _ => True

/-- What is at the destination is the complete output of this worker's `git clone`. -/
def CloneOf (s : State) (w : Worker) : Prop :=
  ∃ dir, s.disk.dest = some dir ∧ s.output w = some (dir, s.disk.content dir)

/-- What keeps processes from each other's directories. -/
structure Sound (pid : ℕ → ℕ) (s : State) : Prop where
  tidy : s.disk.Tidy
  /-- Only the first worker of a process has moved. -/
  moved : ∀ {w}, s.stage w ≠ .idle → w.thread = 0
  active : ∀ {w}, (s.stage w).active → s.status w.proc = .running
  alive : ∀ {p}, s.status p = .running → s.alive (pid p) = true
  /-- Nobody is about to remove the directory of another process that runs. -/
  pending : ∀ {p w}, s.status p = .running → w.proc ≠ p → decimal (pid p) ∉ (s.stage w).pending
  /-- A directory whose removal has begun has no other name. -/
  removal : ∀ {w dir suffix}, (s.stage w).removal = some (dir, suffix) →
    s.disk.NamedOnly dir suffix ∧ s.disk.dest ≠ some dir
  early : ∀ {w}, (s.stage w).early → s.output w = none
  /-- What a clone has produced is not empty, and is nowhere but in its directory or at the
  destination. -/
  output : ∀ {w dir files}, s.output w = some (dir, files) →
    files ≠ [] ∧ s.disk.NamedOnly dir (ownSuffix pid w)
  single : ∀ {w w' dir files files'}, s.output w = some (dir, files) →
    s.output w' = some (dir, files') → w = w'
  /-- A clone that is about to be renamed is complete. -/
  cloned : ∀ {w lock}, s.stage w = .cloned lock →
    ∃ dir, s.disk.tmp (ownSuffix pid w) = some dir ∧ s.output w = some (dir, s.disk.content dir)

/-- A stage a worker may move to. -/
structure Allowed (pid : ℕ → ℕ) (s : State) (w : Worker) (new : Stage) : Prop where
  active : new.active → s.status w.proc = .running
  pending : ∀ {p}, s.status p = .running → w.proc ≠ p → decimal (pid p) ∉ new.pending
  removal : ∀ {dir suffix}, new.removal = some (dir, suffix) →
    s.disk.NamedOnly dir suffix ∧ s.disk.dest ≠ some dir
  early : new.early → (s.stage w).early
  cloned : ∀ {lock}, new = .cloned lock →
    ∃ dir, s.disk.tmp (ownSuffix pid w) = some dir ∧ s.output w = some (dir, s.disk.content dir)

namespace Sound

variable {pid : ℕ → ℕ} {s : State} {w : Worker}

/-- Two processes have two temporary directories. -/
lemma ownSuffix_inj (hpid : Function.Injective pid) {w w' : Worker} (hw : w.thread = 0)
    (hw' : w'.thread = 0) (h : ownSuffix pid w = ownSuffix pid w') : w = w' := by
  have hproc := hpid (decimal_injective h)
  cases w
  cases w'
  simp_all

/-- The locks do not matter. -/
lemma locks (h : Sound pid s) (locks : Locks) : Sound pid { s with locks := locks } :=
  ⟨h.tidy, h.moved, h.active, h.alive, h.pending, h.removal, h.early, h.output, h.single, h.cloned⟩

/-- A worker moves on. -/
lemma become (h : Sound pid s) (hthread : w.thread = 0) {new : Stage}
    (hnew : Allowed pid s w new) : Sound pid (s.become w new) := by
  refine ⟨h.tidy, ?_, ?_, h.alive, ?_, ?_, ?_, h.output, h.single, ?_⟩
  · intro w' hw'
    by_cases hne : w' = w
    · rwa [hne]
    · rw [s.become_stage_of_ne hne] at hw'
      exact h.moved hw'
  · intro w' hw'
    by_cases hne : w' = w
    · subst hne
      rw [s.become_stage_self] at hw'
      exact hnew.active hw'
    · rw [s.become_stage_of_ne hne] at hw'
      exact h.active hw'
  · intro p w' hp hproc
    by_cases hne : w' = w
    · subst hne
      rw [s.become_stage_self]
      exact hnew.pending hp hproc
    · rw [s.become_stage_of_ne hne]
      exact h.pending hp hproc
  · intro w' dir suffix hw'
    by_cases hne : w' = w
    · subst hne
      rw [s.become_stage_self] at hw'
      exact hnew.removal hw'
    · rw [s.become_stage_of_ne hne] at hw'
      exact h.removal hw'
  · intro w' hw'
    apply h.early
    by_cases hne : w' = w
    · subst hne
      rw [s.become_stage_self] at hw'
      exact hnew.early hw'
    · rwa [s.become_stage_of_ne hne] at hw'
  · intro w' lock hw'
    by_cases hne : w' = w
    · subst hne
      rw [s.become_stage_self] at hw'
      exact hnew.cloned hw'
    · rw [s.become_stage_of_ne hne] at hw'
      exact h.cloned hw'

/-- The content of a directory changes that is no complete clone's. -/
lemma write (h : Sound pid s) {dir : ℕ}
    (hdir : ∀ {w lock}, s.stage w = .cloned lock → s.disk.tmp (ownSuffix pid w) ≠ some dir)
    (files : Files) : Sound pid { s with disk := s.disk.write dir files } where
  tidy := h.tidy.write dir files
  moved := h.moved
  active := h.active
  alive := h.alive
  pending := h.pending
  removal hw := ⟨⟨(h.removal hw).1.old, (h.removal hw).1.only⟩, (h.removal hw).2⟩
  early := h.early
  output hw := ⟨(h.output hw).1, (h.output hw).2.old, (h.output hw).2.only⟩
  single := h.single
  cloned hw := by
    obtain ⟨dir', htmp, houtput⟩ := h.cloned hw
    have hne : dir' ≠ dir := by
      rintro rfl
      exact hdir hw htmp
    refine ⟨dir', htmp, houtput.trans ?_⟩
    simp [Disk.write, Function.update_of_ne hne]

/-- A name is removed that is no complete clone's. -/
lemma rmdir (h : Sound pid s) {suffix : Str}
    (hsuffix : ∀ {w lock}, s.stage w = .cloned lock → ownSuffix pid w ≠ suffix) :
    Sound pid { s with disk := s.disk.rmdir suffix } where
  tidy := h.tidy.rmdir suffix
  moved := h.moved
  active := h.active
  alive := h.alive
  pending := h.pending
  removal hw := ⟨(h.removal hw).1.mono Disk.rmdir_next.ge Disk.rmdir_tmp, by
    simpa using (h.removal hw).2⟩
  early := h.early
  output hw := ⟨(h.output hw).1, (h.output hw).2.mono Disk.rmdir_next.ge Disk.rmdir_tmp⟩
  single := h.single
  cloned hw := by
    obtain ⟨dir, htmp, houtput⟩ := h.cloned hw
    refine ⟨dir, (Disk.rmdir_tmp_of_ne (hsuffix hw)).trans htmp, ?_⟩
    simpa using houtput

/-- `git clone` makes its directory. -/
lemma mkdir (h : Sound pid s) {suffix : Str} (hnone : s.disk.tmp suffix = none) :
    Sound pid { s with disk := s.disk.mkdir suffix } where
  tidy := h.tidy.mkdir suffix
  moved := h.moved
  active := h.active
  alive := h.alive
  pending := h.pending
  removal hw := ⟨(h.removal hw).1.mkdir, (h.removal hw).2⟩
  early := h.early
  output hw := ⟨(h.output hw).1, (h.output hw).2.mkdir⟩
  single := h.single
  cloned {w lock} hw := by
    obtain ⟨dir, htmp, houtput⟩ := h.cloned hw
    have hne : ownSuffix pid w ≠ suffix := by
      rintro rfl
      rw [hnone] at htmp
      cases htmp
    have hold : dir ≠ s.disk.next := ((h.tidy.tmpOnly htmp).old).ne
    refine ⟨dir, (Function.update_of_ne hne ..).trans htmp, houtput.trans ?_⟩
    simp [Disk.mkdir, Function.update_of_ne hold]

/-- `git clone` returns success. -/
lemma produce (h : Sound pid s) (hpid : Function.Injective pid) {lock dir : ℕ}
    (hstage : s.stage w = .unlocking lock) (hdir : s.disk.tmp (ownSuffix pid w) = some dir)
    (hne : s.disk.content dir ≠ []) :
    Sound pid (s.record w dir) := by
  have hmoved : ∀ {w'}, s.output w' ≠ none → w'.thread = 0 := fun {w'} hw' => by
    apply h.moved
    intro hidle
    exact hw' (h.early (by rw [hidle]; trivial))
  have hthread : w.thread = 0 := h.moved (by rw [hstage]; simp)
  -- The directory is no other clone's.
  have hfresh : ∀ {w' files}, s.output w' = some (dir, files) → w' = w := fun {w' files} hw' =>
    (ownSuffix_inj hpid hthread (hmoved (by rw [hw']; simp)) ((h.output hw').2.only hdir)).symm
  refine ⟨h.tidy, h.moved, h.active, h.alive, h.pending, h.removal, ?_, ?_, ?_, ?_⟩
  · intro w' (hw' : (s.stage w').early)
    have hne : w' ≠ w := by
      rintro rfl
      rw [hstage] at hw'
      exact hw'
    exact (s.record_output_of_ne hne dir).trans (h.early hw')
  · intro w' dir' files hw'
    by_cases hw : w' = w
    · subst hw
      rw [s.record_output_self] at hw'
      cases hw'
      exact ⟨hne, h.tidy.tmpOnly hdir⟩
    · rw [s.record_output_of_ne hw] at hw'
      exact h.output hw'
  · intro w₁ w₂ dir' files₁ files₂ h₁ h₂
    by_cases hw₁ : w₁ = w <;> by_cases hw₂ : w₂ = w
    · rw [hw₁, hw₂]
    · subst hw₁
      rw [s.record_output_self] at h₁
      rw [s.record_output_of_ne hw₂] at h₂
      cases h₁
      exact (hfresh h₂).symm
    · subst hw₂
      rw [s.record_output_self] at h₂
      rw [s.record_output_of_ne hw₁] at h₁
      cases h₂
      exact hfresh h₁
    · rw [s.record_output_of_ne hw₁] at h₁
      rw [s.record_output_of_ne hw₂] at h₂
      exact h.single h₁ h₂
  · intro w' lock' (hw' : s.stage w' = .cloned lock')
    have hne : w' ≠ w := by
      rintro rfl
      rw [hstage] at hw'
      cases hw'
    obtain ⟨dir', htmp, houtput⟩ := h.cloned hw'
    exact ⟨dir', htmp, (s.record_output_of_ne hne dir).trans houtput⟩

/-- A complete clone is renamed. -/
lemma rename (h : Sound pid s) (hpid : Function.Injective pid) {lock : ℕ} {disk : Disk}
    (hstage : s.stage w = .unlocking lock) (hrename : s.disk.rename (ownSuffix pid w) = some disk) :
    Sound pid { s with disk := disk } := by
  have hthread : w.thread = 0 := h.moved (by rw [hstage]; simp)
  have hrunning : s.status w.proc = .running := h.active (by rw [hstage]; trivial)
  obtain ⟨dir, hdir, -, hdisk⟩ := Disk.rename_eq_some hrename
  have hnext : disk.next = s.disk.next := by rw [hdisk]
  have hcontent : disk.content = s.disk.content := by rw [hdisk]
  have hdest : disk.dest = some dir := by rw [hdisk]
  refine ⟨h.tidy.rename hrename, h.moved, h.active, h.alive, h.pending, ?_, h.early, ?_, h.single,
    ?_⟩
  · intro w' dir' suffix hw'
    obtain ⟨hnamed, -⟩ := h.removal hw'
    refine ⟨hnamed.mono hnext.ge fun htmp => (Disk.rename_tmp hrename htmp).2, ?_⟩
    rw [hdest]
    intro heq
    -- The directory would be the worker's own, and nobody else is about to remove that.
    obtain rfl := Option.some.inj heq
    obtain rfl := hnamed.only hdir
    have hproc : w'.proc = w.proc := by
      by_contra hproc
      exact h.pending hrunning hproc (Stage.pending_of_removal hw')
    have hthread' : w'.thread = 0 := by
      apply h.moved
      intro hidle
      rw [hidle] at hw'
      cases hw'
    obtain rfl : w' = w := ownSuffix_inj hpid hthread' hthread (by rw [ownSuffix, ownSuffix, hproc])
    rw [hstage] at hw'
    cases hw'
  · intro w' dir' files hw'
    exact ⟨(h.output hw').1, (h.output hw').2.mono hnext.ge fun htmp =>
      (Disk.rename_tmp hrename htmp).2⟩
  · intro w' lock' hw'
    obtain ⟨dir', htmp, houtput⟩ := h.cloned hw'
    have hne : ownSuffix pid w' ≠ ownSuffix pid w := by
      intro heq
      have hthread' : w'.thread = 0 := h.moved (by rw [hw']; simp)
      obtain rfl := ownSuffix_inj hpid hthread' hthread heq
      rw [hstage] at hw'
      cases hw'
    refine ⟨dir', ?_, by rwa [hcontent]⟩
    rw [hdisk]
    exact (Function.update_of_ne hne ..).trans htmp

/-- A process starts whose own temporary directory nobody is about to remove. -/
lemma start (h : Sound pid s) {p : ℕ}
    (hclean : ∀ w : Worker, w.proc ≠ p → decimal (pid p) ∉ (s.stage w).pending) :
    Sound pid (s.start pid p) where
  tidy := h.tidy
  moved := h.moved
  active {w} hw := by
    by_cases hp : w.proc = p
    · rw [hp]
      exact Function.update_self ..
    · exact (Function.update_of_ne hp ..).trans (h.active hw)
  alive {q} hq := by
    by_cases hpid : pid q = pid p
    · rw [hpid]
      exact Function.update_self ..
    · have hne : q ≠ p := fun heq => hpid (by rw [heq])
      refine (Function.update_of_ne hpid ..).trans (h.alive ?_)
      exact (Function.update_of_ne hne ..).symm.trans hq
  pending {q w} hq hproc := by
    rcases update_cases (· = Status.running) hq with ⟨rfl, -⟩ | ⟨-, hold⟩
    · exact hclean w hproc
    · exact h.pending hold hproc
  removal := h.removal
  early := h.early
  output := h.output
  single := h.single
  cloned := h.cloned

/-- A process ends. -/
lemma exit (h : Sound pid s) (hpid : Function.Injective pid) (p : ℕ) :
    Sound pid (s.exit pid p) := by
  have hstage : ∀ w, (s.exit pid p).stage w = s.stage w ∧ w.proc ≠ p ∨
      (s.exit pid p).stage w = (s.stage w).abandon := fun w => by
    by_cases hp : w.proc = p
    · exact .inr (if_pos hp)
    · exact .inl ⟨if_neg hp, hp⟩
  have hstatus : ∀ {q}, (s.exit pid p).status q = .running → q ≠ p ∧ s.status q = .running := by
    intro q hq
    have hne : q ≠ p := by
      rintro rfl
      have : (s.exit pid q).status q = .exited := Function.update_self ..
      rw [this] at hq
      cases hq
    exact ⟨hne, (Function.update_of_ne hne ..).symm.trans hq⟩
  refine ⟨h.tidy, ?_, ?_, ?_, ?_, ?_, ?_, h.output, h.single, ?_⟩
  · intro w hw
    apply h.moved
    intro hidle
    rcases hstage w with ⟨heq, -⟩ | heq
    · exact hw (heq.trans hidle)
    · exact hw (heq.trans (by rw [hidle]; rfl))
  · intro w hw
    rcases hstage w with ⟨heq, hproc⟩ | heq
    · rw [heq] at hw
      exact (Function.update_of_ne hproc ..).trans (h.active hw)
    · rw [heq] at hw
      cases hs : s.stage w <;> simp [hs, Stage.abandon, Stage.active] at hw
  · intro q hq
    obtain ⟨hne, hrunning⟩ := hstatus hq
    exact (Function.update_of_ne (hpid.ne hne) ..).trans (h.alive hrunning)
  · intro q w hq hproc
    obtain ⟨-, hrunning⟩ := hstatus hq
    rcases hstage w with ⟨heq, -⟩ | heq <;> rw [heq]
    · exact h.pending hrunning hproc
    · cases s.stage w <;> simp [Stage.abandon, Stage.pending]
  · intro w dir suffix hw
    rcases hstage w with ⟨heq, -⟩ | heq <;> rw [heq] at hw
    · exact h.removal hw
    · cases hs : s.stage w <;> simp [hs, Stage.abandon, Stage.removal] at hw
  · intro w hw
    apply h.early
    rcases hstage w with ⟨heq, -⟩ | heq <;> rw [heq] at hw
    · exact hw
    · cases hs : s.stage w <;> simp [hs, Stage.abandon, Stage.early] at hw ⊢
  · intro w lock hw
    rcases hstage w with ⟨heq, -⟩ | heq <;> rw [heq] at hw
    · exact h.cloned hw
    · cases hs : s.stage w <;> simp [hs, Stage.abandon] at hw

end Sound

/-! ## Steps -/

section

variable {pid : ℕ → ℕ} {destName : Str} {s s' : State} {w : Worker} {old new : Stage}

/-- A worker that is active after a move is one of a process that runs. -/
lemma Move.active (h : Move pid s w old new) (hold : old.active → s.status w.proc = .running) :
    new.active → s.status w.proc = .running := by
  cases h with
  | skip | openFail | leave => exact False.elim
  | enter hrunning => exact fun _ => hrunning
  | _ => exact fun _ => hold trivial

/-- A worker gets to remove what it already was to remove, its own directory, or a stale one. -/
lemma Move.pending (h : Move pid s w old new) {suffix : Str} (hmem : suffix ∈ new.pending) :
    suffix ∈ old.pending ∨ suffix = ownSuffix pid w ∨ isStale s.alive suffix = true := by
  cases h with
  | stale _ _ _ hstale =>
    rcases List.mem_append.mp hmem with hmem | hmem
    · exact .inl hmem
    · obtain rfl := List.mem_singleton.mp hmem
      exact .inr (.inr hstale)
  | failStart | failClone | failRename => exact .inr (.inl (List.mem_singleton.mp hmem))
  | skipDir | giveUp => exact .inl (List.mem_cons_of_mem _ hmem)
  | _ => exact .inl hmem

/-- A directory whose removal begins has the name it is opened by. -/
lemma Move.removal (h : Move pid s w old new) {dir : ℕ} {suffix : Str}
    (hremoval : new.removal = some (dir, suffix)) : s.disk.tmp suffix = some dir := by
  cases h with
  | openDir _ _ _ _ hdir =>
    cases hremoval
    exact hdir
  | _ => cases hremoval

/-- Who has not cloned after a move had not before. -/
lemma Move.early (h : Move pid s w old new) (hearly : new.early) : old.early := by
  cases h with
  | openDir lock | skipDir lock | giveUp lock =>
    cases lock
    · trivial
    · exact hearly
  | cleanOwn | failRename | leave => exact hearly
  | _ => trivial

/-- A move alone does not make a clone. -/
lemma Move.ne_cloned (h : Move pid s w old new) (lock : ℕ) : new ≠ .cloned lock := by
  cases h <;> simp

/-- A move leads to a stage the worker may move to. -/
lemma Move.allowed (hpid : Function.Injective pid) (hpos : ∀ p, 0 < pid p) (h : Sound pid s)
    (hmove : Move pid s w (s.stage w) new) : Allowed pid s w new where
  active := hmove.active h.active
  pending {p} hrunning hproc hmem := by
    rcases hmove.pending hmem with hmem | hown | hstale
    · exact h.pending hrunning hproc hmem
    · exact hproc (hpid (decimal_injective hown)).symm
    · rw [isStale_decimal (hpos p) (h.alive hrunning)] at hstale
      cases hstale
  removal hremoval :=
    ⟨h.tidy.tmpOnly (hmove.removal hremoval), h.tidy.apart (hmove.removal hremoval)⟩
  early := hmove.early
  cloned heq := absurd heq (hmove.ne_cloned _)

/-- A worker whose clone is complete, and a name that is another's to write to or remove. -/
lemma Sound.ownSuffix_ne_of_writing (h : Sound pid s) (hpid : Function.Injective pid)
    (hwriting : (∃ lock, s.stage w = .writing lock) ∨ s.stage w = .orphaned) {w' : Worker}
    {lock : ℕ} (hw' : s.stage w' = .cloned lock) : ownSuffix pid w' ≠ ownSuffix pid w := by
  intro heq
  have hthread' : w'.thread = 0 := h.moved (by rw [hw']; simp)
  have hthread : w.thread = 0 := by
    apply h.moved
    rcases hwriting with ⟨_, hw⟩ | hw <;> simp [hw]
  obtain rfl := Sound.ownSuffix_inj hpid hthread' hthread heq
  rcases hwriting with ⟨_, hw⟩ | hw <;> exact absurd (hw'.symm.trans hw) (by simp)

/-- A clone that has succeeded is not in a directory that another worker removes. -/
lemma Sound.ownSuffix_ne_of_removal (h : Sound pid s) (hthread : w.thread = 0) {dir : ℕ}
    {suffix : Str} (hw : (s.stage w).removal = some (dir, suffix)) {w' : Worker} {lock : ℕ}
    (hw' : s.stage w' = .cloned lock) : ownSuffix pid w' ≠ suffix := by
  rintro rfl
  have hrunning : s.status w'.proc = .running := h.active (by rw [hw']; trivial)
  by_cases hproc : w.proc = w'.proc
  · have hthread' : w'.thread = 0 := h.moved (by rw [hw']; simp)
    obtain rfl : w = w' := by
      cases w
      cases w'
      simp_all
    rw [hw'] at hw
    cases hw
  · exact h.pending hrunning hproc (Stage.pending_of_removal hw)

/-- A step of a worker keeps the invariant. -/
lemma Sound.act (hpid : Function.Injective pid) (hpos : ∀ p, 0 < pid p) (h : Sound pid s)
    (hthread : w.thread = 0) {action : Action} (hstep : Effect pid s w action s') :
    Sound pid s' := by
  -- A stage at which the worker is under way and has nothing to remove.
  have allowed : ∀ {new : Stage}, (s.stage w).active → new.pending = [] → new.removal = none →
      (new.early → (s.stage w).early) → (∀ lock, new ≠ .cloned lock) → Allowed pid s w new := by
    intro new hactive hpending hremoval hearly hcloned
    refine ⟨fun _ => h.active hactive, ?_, ?_, hearly, fun heq => absurd heq (hcloned _)⟩
    · simp [hpending]
    · simp [hremoval]
  cases hstep with
  | move hmove => exact h.become hthread (hmove.allowed hpid hpos h)
  | openLock hstage =>
    refine (h.become hthread (allowed ?_ rfl rfl ?_ (by simp))).locks _ <;> rw [hstage]
    · trivial
    · exact id
  | tryLock hstage =>
    refine (h.become hthread (allowed ?_ rfl rfl ?_ (by simp))).locks _ <;> rw [hstage]
    · trivial
    · exact id
  | refused => exact h.exit hpid w.proc
  | unlock hstage =>
    refine (h.become hthread (allowed ?_ rfl rfl False.elim (by simp))).locks _
    rw [hstage]
    trivial
  | unlinkLock hstage =>
    refine (h.become hthread (allowed ?_ rfl rfl False.elim (by simp))).locks _
    rw [hstage]
    trivial
  | @unlinkPart _ dir suffix _ _ hstage =>
    have hremoval : (s.stage w).removal = some (dir, suffix) := by
      rw [hstage]
      rfl
    apply h.write
    intro w' lock hw' htmp
    exact h.ownSuffix_ne_of_removal hthread hremoval hw' ((h.removal hremoval).1.only htmp)
  | @rmdir lock dir suffix suffixes hstage =>
    have hremoval : (s.stage w).removal = some (dir, suffix) := by
      rw [hstage]
      rfl
    have hmove : Move pid s w (s.stage w) (.cleaning lock suffixes) := hstage ▸ .giveUp ..
    apply (h.become hthread (hmove.allowed hpid hpos h)).rmdir
    intro w' lock' hw'
    by_cases hne : w' = w
    · subst hne
      rw [s.become_stage_self] at hw'
      cases hw'
    · rw [s.become_stage_of_ne hne] at hw'
      exact h.ownSuffix_ne_of_removal hthread hremoval hw'
  | mkdir hstage hnone =>
    refine (h.become hthread (allowed ?_ rfl rfl ?_ (by simp))).mkdir hnone <;> rw [hstage]
    · trivial
    · exact id
  | gitWrite hwriting htmp =>
    apply h.write
    intro w' lock hw' htmp'
    exact h.ownSuffix_ne_of_writing hpid hwriting hw' ((h.tidy.tmpOnly htmp).only htmp')
  | gitRemove hwriting => exact h.rmdir fun hw' => h.ownSuffix_ne_of_writing hpid hwriting hw'
  | @gitDone lock dir hstage htmp hne =>
    have hwriting : (s.stage w).active ∧ (s.stage w).early := by
      rw [hstage]
      exact ⟨trivial, trivial⟩
    have hunlocking : Sound pid (s.become w (.unlocking lock)) :=
      h.become hthread (allowed hwriting.1 rfl rfl False.elim (by simp))
    have hrecord := hunlocking.produce hpid (s.become_stage_self w _) htmp hne
    have heq : (s.become w (.cloned lock)).record w dir =
        ((s.become w (.unlocking lock)).record w dir).become w (.cloned lock) := by
      simp [State.become, State.record]
    rw [heq]
    refine hrecord.become hthread ⟨fun _ => h.active hwriting.1, ?_, ?_, False.elim, fun _ => ?_⟩
    · exact fun _ _ hmem => absurd hmem List.not_mem_nil
    · exact fun hremoval => nomatch hremoval
    · exact ⟨dir, htmp, State.record_output_self ..⟩
  | rename hstage hrename =>
    have hactive : (s.stage w).active := by
      rw [hstage]
      trivial
    exact (h.become hthread (allowed hactive rfl rfl False.elim (by simp))).rename hpid
      (s.become_stage_self w _) hrename

/-- An event keeps the invariant. -/
lemma Sound.next (hpid : Function.Injective pid) (hpos : ∀ p, 0 < pid p) (h : Sound pid s)
    {e : Event} (hworker : OneWorker e) (hclean : StartsClean pid s e)
    (hstep : next pid destName s e = some s') : Sound pid s' := by
  cases e with
  | start p =>
    obtain ⟨-, -, rfl⟩ := next_start hstep
    exact h.start hclean
  | exit p =>
    obtain ⟨-, rfl⟩ := next_exit hstep
    exact h.exit hpid p
  | act w action => exact h.act hpid hpos hworker (act_effect hstep)

/-- The invariant holds before the first process starts. -/
lemma Initial.sound (h : Initial pid s) : Sound pid s where
  tidy := h.tidy
  moved hw := absurd (h.idle _) hw
  active {w} hw := by
    rw [h.idle] at hw
    exact hw.elim
  alive {p} hp := by
    rw [h.waiting] at hp
    cases hp
  pending {p w} hp := by
    rw [h.waiting] at hp
    cases hp
  removal {w dir suffix} hw := by
    rw [h.idle] at hw
    cases hw
  early _ := h.noOutput _
  output hw := by
    rw [h.noOutput] at hw
    cases hw
  single hw := by
    rw [h.noOutput] at hw
    cases hw
  cloned {w lock} hw := by
    rw [h.idle] at hw
    cases hw

/-! ## The destination -/

/-- What an event does to the destination: nothing, or a complete clone takes the place of nothing,
or of an empty directory. -/
lemma Sound.dest_act (h : Sound pid s) {action : Action} (hstep : Effect pid s w action s') :
    (s'.disk.dest = s.disk.dest ∧
        ∀ dir, s.disk.dest = some dir → s'.disk.content dir = s.disk.content dir) ∨
      s.disk.visible.getD [] = [] ∧ CloneOf s' w := by
  cases hstep with
  | @unlinkPart _ dir suffix _ _ hstage =>
    have hremoval : (s.stage w).removal = some (dir, suffix) := by
      rw [hstage]
      rfl
    refine .inl ⟨rfl, fun dir' hdest => Function.update_of_ne ?_ ..⟩
    rintro rfl
    exact (h.removal hremoval).2 hdest
  | rmdir => exact .inl ⟨Disk.rmdir_dest, fun _ _ => by rw [Disk.rmdir_content]⟩
  | gitRemove => exact .inl ⟨Disk.rmdir_dest, fun _ _ => by rw [Disk.rmdir_content]⟩
  | mkdir =>
    refine .inl ⟨rfl, fun dir hdest => Function.update_of_ne ?_ ..⟩
    exact (h.tidy.destOld hdest).ne
  | gitWrite _ htmp =>
    refine .inl ⟨rfl, fun dir hdest => Function.update_of_ne ?_ ..⟩
    rintro rfl
    exact h.tidy.apart htmp hdest
  | rename hstage hrename =>
    obtain ⟨dir, hdir, hempty, rfl⟩ := Disk.rename_eq_some hrename
    obtain ⟨dir', hdir', houtput⟩ := h.cloned hstage
    obtain rfl := Option.some.inj (hdir.symm.trans hdir')
    exact .inr ⟨hempty, dir, rfl, houtput⟩
  | _ => exact .inl ⟨rfl, fun _ _ => rfl⟩

/-- What a clone has produced is not forgotten. -/
lemma Sound.output_act (h : Sound pid s) {action : Action} (hstep : Effect pid s w action s')
    {w' : Worker} {o : ℕ × Files} (ho : s.output w' = some o) : s'.output w' = some o := by
  cases hstep with
  | gitDone hstage =>
    have hne : w' ≠ w := by
      rintro rfl
      rw [h.early (by rw [hstage]; trivial)] at ho
      cases ho
    exact (State.record_output_of_ne _ hne _).trans ho
  | _ => exact ho

/-- What an event does to the destination. -/
lemma Sound.dest_next (h : Sound pid s) {e : Event}
    (hstep : Clone.next pid destName s e = some s') :
    (s'.disk.visible = s.disk.visible ∧ ∀ w, CloneOf s w → CloneOf s' w) ∨
      s.disk.visible.getD [] = [] ∧ ∃ w, CloneOf s' w := by
  cases e with
  | start p =>
    obtain ⟨-, -, rfl⟩ := next_start hstep
    exact .inl ⟨rfl, fun _ h => h⟩
  | exit p =>
    obtain ⟨-, rfl⟩ := next_exit hstep
    exact .inl ⟨rfl, fun _ h => h⟩
  | act w action =>
    have hstep := act_effect hstep
    rcases h.dest_act hstep with ⟨hdest, hcontent⟩ | ⟨hempty, hclone⟩
    · left
      constructor
      · unfold Disk.visible
        rw [hdest]
        exact Option.map_congr fun dir hdir => hcontent dir hdir
      · rintro w' ⟨dir, hdir, houtput⟩
        refine ⟨dir, hdest.trans hdir, ?_⟩
        rw [hcontent dir hdir]
        exact h.output_act hstep houtput
    · exact .inr ⟨hempty, w, hclone⟩

/-- A clone at the destination is in the way of every other. -/
lemma Sound.visible_ne (h : Sound pid s) (hclone : CloneOf s w) : s.disk.visible.getD [] ≠ [] := by
  obtain ⟨dir, hdir, houtput⟩ := hclone
  unfold Disk.visible
  rw [hdir]
  exact (h.output houtput).1

end

/-! ## Runs -/

section

variable (pid : ℕ → ℕ) (destName : Str)

/-- The steps of a run in which no process starts while another is about to remove the temporary
directory that will be its own. -/
def CleanStep : State → State → Prop :=
  StepOf (next pid destName) fun s e => OneWorker e ∧ StartsClean pid s e

variable {pid destName}

/-- The invariant holds throughout, and a clone stays. -/
lemma Sound.run (hpid : Function.Injective pid) (hpos : ∀ p, 0 < pid p) {s t : State}
    (h : Sound pid s) (hrun : Relation.ReflTransGen (CleanStep pid destName) s t) :
    Sound pid t ∧ (t.disk.visible = s.disk.visible ∨ ∃ w, CloneOf t w) ∧
      ∀ w, CloneOf s w → t.disk.visible = s.disk.visible ∧ CloneOf t w := by
  induction hrun with
  | refl => exact ⟨h, .inl rfl, fun w hw => ⟨rfl, hw⟩⟩
  | @tail t u _ hstep ih =>
    obtain ⟨hsound, hvisible, hstay⟩ := ih
    obtain ⟨e, ⟨hworker, hclean⟩, hnext⟩ := hstep
    refine ⟨hsound.next hpid hpos hworker hclean hnext, ?_, fun w hw => ?_⟩
    · rcases hsound.dest_next hnext with ⟨hsame, hkeep⟩ | ⟨-, hclone⟩
      · rw [hsame]
        exact hvisible.imp_right fun ⟨w, hw⟩ => ⟨w, hkeep w hw⟩
      · exact .inr hclone
    · obtain ⟨hsame, hw⟩ := hstay w hw
      rcases hsound.dest_next hnext with ⟨hsame', hkeep⟩ | ⟨hempty, -⟩
      · exact ⟨hsame'.trans hsame, hkeep w hw⟩
      · exact absurd hempty (hsound.visible_ne hw)

end

/-- In every run in which no process starts while another is about to remove the temporary directory
that will be its own, what can be seen at the destination is what was there before or the complete
output of exactly one successful `git clone`, and such a clone is neither changed nor removed. -/
theorem visible_or_cloned (pid : ℕ → ℕ) (destName : Str) (hpid : Function.Injective pid)
    (hpos : ∀ p, 0 < pid p) {s₀ s : State} (h₀ : Initial pid s₀)
    (hrun : Relation.ReflTransGen (CleanStep pid destName) s₀ s) :
    (s.disk.visible = s₀.disk.visible ∨ ∃! w, CloneOf s w) ∧
      ∀ w, CloneOf s w → ∀ t, Relation.ReflTransGen (CleanStep pid destName) s t →
        t.disk.visible = s.disk.visible ∧ CloneOf t w := by
  obtain ⟨hsound, hvisible, -⟩ := h₀.sound.run hpid hpos hrun
  refine ⟨hvisible.imp_right fun ⟨w, hw⟩ => ⟨w, hw, fun w' hw' => ?_⟩, fun w hw t ht =>
    (hsound.run hpid hpos ht).2.2 w hw⟩
  obtain ⟨dir, hdir, houtput⟩ := hw
  obtain ⟨dir', hdir', houtput'⟩ := hw'
  obtain rfl := Option.some.inj (hdir.symm.trans hdir')
  exact hsound.single houtput' houtput

/-- A process that died right after `git clone` made its directory, with the identifier 7. -/
def leftover : State :=
  { blank with
    disk := ⟨none, fun suffix => if suffix = ['7'] then some 0 else none, fun _ => [], 1⟩ }

/-- The directory left over is all there is initially. -/
lemma initial_leftover (pid : ℕ → ℕ) : Initial pid leftover where
  waiting _ := rfl
  notAlive _ := rfl
  idle _ := rfl
  unlocked _ := rfl
  noOutput _ := rfl
  pathOld _ h := nomatch h
  tidy := by
    have htmp : ∀ {suffix dir}, leftover.disk.tmp suffix = some dir → suffix = ['7'] ∧ dir = 0 := by
      intro suffix dir h
      obtain ⟨hsuffix, h⟩ := Option.ite_none_right_eq_some.mp h
      exact ⟨hsuffix, (Option.some.inj h).symm⟩
    refine ⟨fun h => ?_, fun h => (nomatch h), fun _ h => (nomatch h)⟩
    obtain ⟨rfl, rfl⟩ := htmp h
    exact ⟨Nat.one_pos, fun h => (htmp h).1⟩

/-- A process finds the directory left over stale, and is about to remove it. -/
def findStale : List Event :=
  [.start 0, .act ⟨0, 0⟩ .enter, .act ⟨0, 0⟩ (.read ['7']), .act ⟨0, 0⟩ .examine,
    .act ⟨0, 0⟩ .endScan]

/-- Another clones while the first removes it. -/
def cloneBeside : List Event :=
  approach ⟨1, 0⟩ ++
    [.act ⟨1, 0⟩ .tryLock, .act ⟨1, 0⟩ .gitStart, .act ⟨1, 0⟩ (.gitWrite [(".git".toList, none)]),
      .act ⟨0, 0⟩ .openDir, .act ⟨0, 0⟩ .rmdir, .act ⟨1, 0⟩ .gitDone, .act ⟨1, 0⟩ .rename]

/-- A process that starts while another is about to remove the directory left over clones, and its
clone stays. -/
theorem visible_or_cloned_sample :
    ∃ s, replay (next (· + 5) "repo".toList) leftover (findStale ++ .start 1 :: cloneBeside) =
        some s ∧
      s.disk.visible = some [(".git".toList, none)] ∧ (∃! w, CloneOf s w) ∧
      ∀ t, Relation.ReflTransGen (CleanStep (· + 5) "repo".toList) s t →
        t.disk.visible = s.disk.visible := by
  obtain ⟨s, hs⟩ : ∃ s, replay (next (· + 5) "repo".toList) leftover
      (findStale ++ .start 1 :: cloneBeside) = some s := by
    apply Option.isSome_iff_exists.mp
    decide +kernel
  have hdest : (replay (next (· + 5) "repo".toList) leftover
      (findStale ++ .start 1 :: cloneBeside)).map (fun s => s.disk.visible) =
        some (some [(".git".toList, none)]) := by
    decide +kernel
  have hpending : (replay (next (· + 5) "repo".toList) leftover findStale).map
      (fun s => (s.stage ⟨0, 0⟩).pending) = some [['7']] := by
    decide +kernel
  rw [hs, Option.map_some, Option.some.injEq] at hdest
  obtain ⟨t, ht, hrest⟩ := replay_append_eq_some_iff.mp hs
  obtain ⟨u, hu, hrest⟩ := replay_cons_eq_some_iff.mp hrest
  rw [ht, Option.map_some, Option.some.injEq] at hpending
  have hclean : StartsClean (· + 5) t (.start 1) := by
    intro w _
    by_cases hw : w = ⟨0, 0⟩
    · rw [hw, hpending]
      decide
    · rw [idle_of_replay ht rfl (by simp [findStale, Ne.symm hw])]
      exact List.not_mem_nil
  have hfind : Relation.ReflTransGen (CleanStep (· + 5) "repo".toList) leftover t := by
    have hfirst : StartsClean (· + 5) leftover (.start 0) := fun w _ => List.not_mem_nil
    obtain ⟨v, hv, ht⟩ := replay_cons_eq_some_iff.mp ht
    refine .head ⟨.start 0, ⟨trivial, hfirst⟩, hv⟩ (run_of_replay ?_ ht)
    simp [OneWorker, StartsClean]
  have hrun : Relation.ReflTransGen (CleanStep (· + 5) "repo".toList) leftover s := by
    refine (hfind.tail ⟨.start 1, ⟨trivial, hclean⟩, hu⟩).trans (run_of_replay ?_ hrest)
    simp [cloneBeside, approach, OneWorker, StartsClean]
  obtain ⟨hvisible, hstay⟩ := visible_or_cloned (· + 5) "repo".toList (add_left_injective 5)
    (by simp) (initial_leftover _) hrun
  have hclone : ∃! w, CloneOf s w := by
    refine hvisible.resolve_left fun h => ?_
    rw [hdest] at h
    cases h
  obtain ⟨w, hw⟩ := hclone.exists
  exact ⟨s, hs, hdest, hclone, fun t ht => (hstay w hw t ht).1⟩

/-- A run with two processes, of which the second has the identifier 7.  The first finds the
directory left over stale before the second starts, and removes a file from it once the second's
clone in it has succeeded. -/
def pidAgain : List Event :=
  findStale ++ [.start 2] ++ approach ⟨2, 0⟩ ++
    [.act ⟨2, 0⟩ .tryLock, .act ⟨2, 0⟩ .gitStart,
      .act ⟨2, 0⟩ (.gitWrite [(".git".toList, none), ("README".toList, some [])]),
      .act ⟨2, 0⟩ .gitDone, .act ⟨0, 0⟩ .openDir,
      .act ⟨0, 0⟩ (.unlinkPart [(".git".toList, none)]), .act ⟨2, 0⟩ .rename]

/-- Part of a clone can be seen at the destination. -/
theorem partial_visible :
    ¬∀ (pid : ℕ → ℕ) (destName : Str) (s₀ s : State), Function.Injective pid → (∀ p, 0 < pid p) →
      Initial pid s₀ →
      Relation.ReflTransGen (StepOf (next pid destName) fun _ e => OneWorker e) s₀ s →
      s.disk.visible = s₀.disk.visible ∨
        ∃ w dir files, s.output w = some (dir, files) ∧ s.disk.visible = some files := by
  intro hvisible
  obtain ⟨s, hs⟩ : ∃ s, replay (next (· + 5) "repo".toList) leftover pidAgain = some s := by
    apply Option.isSome_iff_exists.mp
    decide +kernel
  have hdest : (replay (next (· + 5) "repo".toList) leftover pidAgain).map
      (fun s => s.disk.visible) = some (some [(".git".toList, none)]) := by
    decide +kernel
  have houtput : (replay (next (· + 5) "repo".toList) leftover pidAgain).map State.output =
      some (update (fun _ : Worker => (none : Option (ℕ × Files))) ⟨2, 0⟩
        (some (0, [(".git".toList, none), ("README".toList, some [])]))) := by
    rfl
  rw [hs, Option.map_some, Option.some.injEq] at hdest houtput
  have hrun : Relation.ReflTransGen
      (StepOf (next (· + 5) "repo".toList) fun _ e => OneWorker e) leftover s := by
    refine run_of_replay ?_ hs
    simp [pidAgain, findStale, approach, OneWorker]
  rcases hvisible (· + 5) "repo".toList leftover s (add_left_injective 5) (by simp)
    (initial_leftover _) hrun with h | ⟨w, dir, files, hw, h⟩
  · rw [hdest] at h
    cases h
  · rw [hdest] at h
    rw [houtput] at hw
    by_cases hne : w = ⟨2, 0⟩
    · subst hne
      rw [Function.update_self] at hw
      cases h
      cases hw
    · rw [Function.update_of_ne hne] at hw
      cases hw

end Clone

end Scap
