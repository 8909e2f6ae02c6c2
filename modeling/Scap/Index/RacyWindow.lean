import Mathlib.Algebra.Order.Group.Int
import Scap.Index.Validate

/-!
# The racy window

What a hit of the validation pass says about a directory on a file system with a coarse clock.  A
`History` is the list of changes of the directory's entry list; the mtime shown is the time of the
last change, rounded down to the clock's granularity.  A `Timeline` is one life of an index entry:
the walk stats the directory and reads its entries, the index is written, and later the entry is
validated.

The window is measured from the time the index was written, while the evidence was gathered when the
directory was read.  So a hit is sound when the index was written less than two seconds after the
tick in which the directory was read (`racy_window_sound`), and beyond that bound a change in the
same tick can always be missed (`exists_missed_change`).
-/

namespace Scap

/-- A time rounded down to a multiple of the granularity. -/
def tick (granularity time : ℤ) : ℤ := granularity * (time / granularity)

/-- A time is not before its tick. -/
lemma tick_le {granularity : ℤ} (time : ℤ) (h : 0 < granularity) : tick granularity time ≤ time :=
  Int.mul_ediv_self_le h.ne'

/-- A later time has no earlier tick. -/
lemma tick_mono {granularity a b : ℤ} (h : 0 < granularity) (hab : a ≤ b) :
    tick granularity a ≤ tick granularity b :=
  Int.mul_le_mul_of_nonneg_left (Int.ediv_le_ediv h hab) h.le

/-- The changes of a directory's entry list in their order, each with its time and the entry list
from then on. -/
structure History (L : Type) where
  changes : List (ℤ × L)
  ordered : changes.Pairwise fun a b => a.1 ≤ b.1

/-- A moment at which the directory is looked at: the changes up to `index` have happened, the later
ones have not. -/
structure Look {L : Type} (history : History L) where
  time : ℤ
  index : ℕ
  change : ℤ × L
  last : history.changes[index]? = some change
  since : change.1 ≤ time
  before : ∀ next, history.changes[index + 1]? = some next → time ≤ next.1

/-- One life of an index entry on a file system of some granularity. -/
structure Timeline (L : Type) where
  /-- The granularity of the file system's clock, in nanoseconds. -/
  granularity : ℤ
  granularity_pos : 0 < granularity
  granularity_le : granularity ≤ 2000000000
  /-- What happens to the directory. -/
  history : History L
  /-- The walk reads the directory's mtime. -/
  stat : Look history
  /-- The walk reads the directory's entries. -/
  read : Look history
  /-- The index is written. -/
  written : ℤ
  /-- The entry is validated. -/
  validation : Look history
  stat_read : stat.index ≤ read.index ∧ stat.time ≤ read.time
  read_validation : read.index ≤ validation.index
  read_written : read.time ≤ written
  written_validation : written ≤ validation.time
  /-- The mtime the walk records. -/
  recorded : Int64
  recorded_eq : recorded.toInt = tick granularity stat.change.1
  /-- The time the index carries. -/
  writtenNs : Int64
  writtenNs_eq : writtenNs.toInt = written
  /-- The mtime validation observes. -/
  observed : Int64
  observed_eq : observed.toInt = tick granularity validation.change.1

/-- Clear of the smallest `i64`, an mtime is evidence when it is two seconds older than the
index. -/
lemma isRacy_eq_false_iff {observed written : Int64} (h : -2 ^ 63 + 2000000000 ≤ written.toInt) :
    isRacy observed written = false ↔ observed.toInt + 2000000000 ≤ written.toInt := by
  have hwindow : RACY_WINDOW_NS.toInt = 2000000000 := by decide
  have hlt := written.toInt_lt
  rw [isRacy, decide_eq_false_iff_not, Int64.lt_iff_toInt_lt, toInt_saturatingSub, hwindow]
  omega

/-- A directory entry is a hit exactly when the recorded mtime is observed and is not racy. -/
lemma hits_eq_one_iff {writtenNs observed : Int64} {entry : Entry} :
    (visitEntry writtenNs entry (.dir observed)).1.hits = 1 ↔
      entry.mtimeNs = some observed ∧ isRacy observed writtenNs = false := by
  rcases visitEntry_cases writtenNs entry (.dir observed) with ⟨hprobe, -⟩ |
    ⟨mtime, hprobe, hmtime, hracy, hvisit⟩ | ⟨-, hracy, racy, hvisit⟩
  · simp at hprobe
  · obtain rfl : observed = mtime := by simpa using hprobe
    simp [hvisit, hmtime, hracy]
  · rw [hvisit]
    constructor
    · simp
    · rintro ⟨hmtime, hfalse⟩
      exact absurd (hracy observed rfl hmtime) (by simp [hfalse])

namespace History

variable {L : Type} {history : History L}

/-- A change after the directory was looked at happened at that time or later. -/
lemma time_le_of_lt {look later : Look history} (h : look.index < later.index) :
    look.time ≤ later.change.1 := by
  obtain ⟨hlater, hchange⟩ := List.getElem?_eq_some_iff.mp later.last
  have hlt : look.index + 1 < history.changes.length := lt_of_le_of_lt h hlater
  have hle := look.before _ (List.getElem?_eq_getElem hlt)
  rw [← hchange]
  rcases Nat.lt_or_eq_of_le (Nat.succ_le_of_lt h) with hbefore | heq
  · exact hle.trans (List.pairwise_iff_getElem.mp history.ordered _ _ hlt hlater hbefore)
  · simpa only [← heq] using hle

end History

/-- **The window is sound for an index written soon enough.** If the index was written less than two
seconds after the tick in which the directory was read, then a hit means that the entry list is
still the one that was read. -/
theorem racy_window_sound {L : Type} (timeline : Timeline L)
    (hsoon : timeline.written < tick timeline.granularity timeline.read.time + 2000000000)
    (hrange : -2 ^ 63 + 2000000000 ≤ timeline.written) (entry : Entry)
    (hentry : entry.mtimeNs = some timeline.recorded)
    (hhit : (visitEntry timeline.writtenNs entry (.dir timeline.observed)).1.hits = 1) :
    timeline.validation.change.2 = timeline.read.change.2 := by
  obtain ⟨hobserved, hracy⟩ := hits_eq_one_iff.mp hhit
  have hsame : timeline.recorded = timeline.observed :=
    Option.some.inj (hentry.symm.trans hobserved)
  rw [isRacy_eq_false_iff (by rwa [timeline.writtenNs_eq]), timeline.writtenNs_eq] at hracy
  rcases Nat.lt_or_eq_of_le timeline.read_validation with hlt | heq
  · -- A change after the read lies in the tick of the read, so the window has not passed.
    have hstat : tick timeline.granularity timeline.stat.change.1 ≤
        tick timeline.granularity timeline.read.time :=
      tick_mono timeline.granularity_pos (timeline.stat.since.trans timeline.stat_read.2)
    have hchange : tick timeline.granularity timeline.read.time ≤
        tick timeline.granularity timeline.validation.change.1 :=
      tick_mono timeline.granularity_pos (History.time_le_of_lt hlt)
    rw [← timeline.recorded_eq, hsame] at hstat
    rw [← timeline.observed_eq] at hchange
    omega
  · have hlast := timeline.validation.last
    rw [← heq, timeline.read.last] at hlast
    rw [Option.some.inj hlast]

/-- A directory that is created at 0 s, read at 10 s and validated at 20 s, on a clock of whole
seconds. -/
def quietTimeline : Timeline Bool where
  granularity := 1000000000
  granularity_pos := by decide
  granularity_le := by decide
  history := ⟨[(0, true)], by simp⟩
  stat := ⟨10000000000, 0, _, rfl, by decide, by simp⟩
  read := ⟨10000000000, 0, _, rfl, by decide, by simp⟩
  written := 11000000000
  validation := ⟨20000000000, 0, _, rfl, by decide, by simp⟩
  stat_read := by decide
  read_validation := by decide
  read_written := by decide
  written_validation := by decide
  recorded := 0
  recorded_eq := by decide
  writtenNs := 11000000000
  writtenNs_eq := by decide
  observed := 0
  observed_eq := by decide

/-- In a quiet timeline the last change is the one that was read. -/
theorem racy_window_sound_sample :
    quietTimeline.validation.change.2 = quietTimeline.read.change.2 :=
  racy_window_sound quietTimeline (by decide) (by decide) ⟨[], some 0, []⟩ rfl (by decide)

/-- A directory created at one time and changed at another. -/
def changedOnce (created changed : ℤ) (h : created ≤ changed) : History Bool where
  changes := [(created, false), (changed, true)]
  ordered := by simpa using h

/-- **The bound is exact.**  When the index is written two seconds after the tick of the read or
later, a change after the read and in that tick goes unnoticed. -/
lemma exists_missed_change (granularity read changed written : ℤ) (hpos : 0 < granularity)
    (hle : granularity ≤ 2000000000) (hread : read ≤ changed) (hchanged : changed ≤ written)
    (htick : tick granularity changed = tick granularity read)
    (hlate : tick granularity read + 2000000000 ≤ written)
    (hlow : -2 ^ 63 ≤ tick granularity read) (hhigh : written < 2 ^ 63) :
    ∃ timeline : Timeline Bool, timeline.granularity = granularity ∧
      timeline.read.time = read ∧ timeline.validation.change.1 = changed ∧
      timeline.written = written ∧
      (∀ entry : Entry, entry.mtimeNs = some timeline.recorded →
        (visitEntry timeline.writtenNs entry (.dir timeline.observed)).1.hits = 1) ∧
      timeline.validation.change.2 ≠ timeline.read.change.2 := by
  have hcreated := tick_le read hpos
  have hidem : tick granularity (tick granularity read) = tick granularity read := by
    unfold tick
    rw [Int.mul_ediv_cancel_left _ hpos.ne']
  let history := changedOnce (tick granularity read) changed (hcreated.trans hread)
  let look : Look history :=
    ⟨read, 0, _, rfl, hcreated, by simpa [history, changedOnce] using hread⟩
  have hmtime : (Int64.ofInt (tick granularity read)).toInt = tick granularity read :=
    Int64.toInt_ofInt_of_le hlow (by omega)
  have hwritten : (Int64.ofInt written).toInt = written :=
    Int64.toInt_ofInt_of_le (by omega) hhigh
  let timeline : Timeline Bool := {
    granularity := granularity
    granularity_pos := hpos
    granularity_le := hle
    history := history
    stat := look
    read := look
    written := written
    validation := ⟨written, 1, _, rfl, hchanged, by simp [history, changedOnce]⟩
    stat_read := ⟨le_rfl, le_rfl⟩
    read_validation := Nat.zero_le _
    read_written := hread.trans hchanged
    written_validation := le_rfl
    recorded := Int64.ofInt (tick granularity read)
    recorded_eq := hmtime.trans hidem.symm
    writtenNs := Int64.ofInt written
    writtenNs_eq := hwritten
    observed := Int64.ofInt (tick granularity read)
    observed_eq := hmtime.trans htick.symm }
  refine ⟨timeline, rfl, rfl, rfl, rfl, fun entry hentry => ?_, by change true ≠ false; decide⟩
  refine hits_eq_one_iff.mpr ⟨hentry, (isRacy_eq_false_iff ?_).mpr ?_⟩
  · rw [hwritten]
    omega
  · rw [hwritten, hmtime]
    exact hlate

/-- On a clock of whole seconds, a change 0.4 s after the read goes unnoticed when the index is
written 2.5 s after the read. -/
theorem racy_window_misses_change : ¬∀ (timeline : Timeline Bool) (entry : Entry),
    entry.mtimeNs = some timeline.recorded →
    (visitEntry timeline.writtenNs entry (.dir timeline.observed)).1.hits = 1 →
    timeline.validation.change.2 = timeline.read.change.2 := by
  intro hsound
  obtain ⟨timeline, -, -, -, -, hhit, hmissed⟩ := exists_missed_change 1000000000 500000000
    900000000 3000000000 (by decide) (by decide) (by decide) (by decide) (by decide) (by decide)
    (by decide) (by decide)
  let entry : Entry := ⟨[], some timeline.recorded, []⟩
  exact hmissed (hsound timeline entry rfl (hhit entry rfl))

end Scap
