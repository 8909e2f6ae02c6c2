import Scap.Index.RacyWindow

/-!
# Timestamps at the ends of the range

A directory's mtime is compared as one `i64` of nanoseconds (`src/walk/sys.rs`, `mtime_ns`,
`NEVER_VALID`; `src/index.rs`, `walk_index`, `is_racy`).  A timestamp beyond the upper end saturates
to a value that is always racy.  At the lower end the nanoseconds are added after the seconds have
saturated, so all timestamps before the year 1678 with the same nanoseconds have one value, and
nothing makes that value racy.
-/

namespace Scap

/-- The nanoseconds of a `stat` are less than a second. -/
def Attr.HasNanos (attr : Attr) : Prop :=
  0 ≤ attr.mtimeNsec.toInt ∧ attr.mtimeNsec.toInt < 1000000000

instance (attr : Attr) : Decidable attr.HasNanos :=
  inferInstanceAs (Decidable (_ ∧ _))

/-- `walk_index` counts the entry, as a directory with the mtime `recorded`, as a hit when it
observes `observed`. -/
def Entry.Hit (entry : Entry) (writtenNs recorded observed : Int64) : Prop :=
  (visitEntry writtenNs { entry with mtimeNs := some recorded } (.dir observed)).1.hits = 1

/-- An entry is hit if its time is the one recorded and is not racy. -/
lemma Entry.hit_iff {entry : Entry} {writtenNs recorded observed : Int64} :
    entry.Hit writtenNs recorded observed ↔
      recorded = observed ∧ isRacy observed writtenNs = false := by
  simp [Entry.Hit, hits_eq_one_iff]

/-- An mtime is evidence when it is two seconds older than the index, or the smallest `i64`. -/
lemma isRacy_eq_false_iff_max {observed written : Int64} : isRacy observed written = false ↔
    observed.toInt ≤ max (-2 ^ 63) (written.toInt - 2000000000) := by
  have hwindow : RACY_WINDOW_NS.toInt = 2000000000 := by decide
  have hlt := written.toInt_lt
  rw [isRacy, decide_eq_false_iff_not, Int64.lt_iff_toInt_lt, toInt_saturatingSub, hwindow]
  omega

/-- The seconds saturate at both ends before the nanoseconds are added. -/
lemma toInt_mtimeNs {stat : Stat} (h : stat.HasNanos) : (mtimeNs stat).toInt =
    min (max (-2 ^ 63) (stat.mtime.toInt * 1000000000) + stat.mtimeNsec.toInt) (2 ^ 63 - 1) := by
  obtain ⟨hnonneg, hlt⟩ := h
  have hbillion : (1000000000 : Int64).toInt = 1000000000 := by decide
  rw [mtimeNs, toInt_saturatingAdd, toInt_saturatingMul, hbillion]
  omega

/-- What a hit says about the two timestamps. -/
lemma hit_mtimeNs_iff {entry : Entry} {recorded observed : Stat} (hr : recorded.HasNanos)
    (ho : observed.HasNanos) {writtenNs : Int64} :
    entry.Hit writtenNs (mtimeNs recorded) (mtimeNs observed) ↔
      max (-2 ^ 63) (recorded.mtime.toInt * 1000000000) + recorded.mtimeNsec.toInt =
        max (-2 ^ 63) (observed.mtime.toInt * 1000000000) + observed.mtimeNsec.toInt ∧
      max (-2 ^ 63) (observed.mtime.toInt * 1000000000) + observed.mtimeNsec.toInt ≤
        max (-2 ^ 63) (writtenNs.toInt - 2000000000) := by
  have hw := writtenNs.toInt_lt
  rw [Entry.hit_iff, ← Int64.toInt_inj, isRacy_eq_false_iff_max, toInt_mtimeNs hr, toInt_mtimeNs ho]
  -- a value cut off at the upper end is not old enough
  omega

/-- One of the two steps of `mtime_ns` saturates. -/
def Attr.Saturates (attr : Attr) : Prop :=
  attr.mtime.toInt * 1000000000 < -2 ^ 63 ∨
    2 ^ 63 ≤ attr.mtime.toInt * 1000000000 + attr.mtimeNsec.toInt

/-- The last second that a value of `mtime_ns` does not reach. -/
def BEFORE_RANGE : ℤ := -9223372037

/-- Two timestamps, one of them before the range, that `mtime_ns` does not tell apart: both are
before the range and have the same nanoseconds, or the other is in its first second, as many
nanoseconds behind. -/
def Attr.Collides (a b : Attr) : Prop :=
  (a.mtime.toInt ≤ BEFORE_RANGE ∧ b.mtime.toInt ≤ BEFORE_RANGE ∧
    a.mtimeNsec.toInt = b.mtimeNsec.toInt) ∨
  (a.mtime.toInt ≤ BEFORE_RANGE ∧ b.mtime.toInt = BEFORE_RANGE + 1 ∧
    a.mtimeNsec.toInt = b.mtimeNsec.toInt + 854775808) ∨
  (b.mtime.toInt ≤ BEFORE_RANGE ∧ a.mtime.toInt = BEFORE_RANGE + 1 ∧
    b.mtimeNsec.toInt = a.mtimeNsec.toInt + 854775808)

/-- The index was written long enough after the smallest `i64` for the nanoseconds of both
timestamps; without any it always was. -/
def OldEnough (writtenNs : Int64) (a b : Attr) : Prop :=
  max a.mtimeNsec.toInt b.mtimeNsec.toInt = 0 ∨
    -2 ^ 63 + max a.mtimeNsec.toInt b.mtimeNsec.toInt + 2000000000 ≤ writtenNs.toInt

/-- **When only the very same timestamp validates**: a hit means the same timestamp except for two
colliding timestamps of different seconds; an entry whose `fstat` failed validates only for a
timestamp before the range without nanoseconds; and a saturated timestamp is re-walked unless it
collides with what is observed. -/
theorem hit_same_stamp_iff {recorded observed : Stat} (hr : recorded.HasNanos)
    (ho : observed.HasNanos) (entry : Entry) (writtenNs : Int64) :
    ((entry.Hit writtenNs (mtimeNs recorded) (mtimeNs observed) →
        recorded.mtime = observed.mtime ∧ recorded.mtimeNsec = observed.mtimeNsec) ↔
      ¬(recorded.Collides observed.toAttr ∧ recorded.mtime ≠ observed.mtime ∧
        OldEnough writtenNs recorded.toAttr observed.toAttr)) ∧
    (¬entry.Hit writtenNs NEVER_VALID (mtimeNs observed) ↔
      ¬(observed.mtime.toInt ≤ BEFORE_RANGE ∧ observed.mtimeNsec.toInt = 0)) ∧
    ((recorded.Saturates ∨ observed.Saturates →
        ¬entry.Hit writtenNs (mtimeNs recorded) (mtimeNs observed)) ↔
      ¬(recorded.Collides observed.toAttr ∧
        OldEnough writtenNs recorded.toAttr observed.toAttr)) := by
  have hw := writtenNs.toInt_lt
  have ⟨hr₀, hr₁⟩ := hr
  have ⟨ho₀, ho₁⟩ := ho
  refine ⟨?_, not_congr ?_, ?_⟩
  · rw [hit_mtimeNs_iff hr ho, Ne, ← Int64.toInt_inj, ← Int64.toInt_inj, Attr.Collides, OldEnough,
      BEFORE_RANGE]
    omega
  · have hnever : NEVER_VALID.toInt = -2 ^ 63 := by decide
    rw [Entry.hit_iff, ← Int64.toInt_inj, isRacy_eq_false_iff_max, toInt_mtimeNs ho, hnever,
      BEFORE_RANGE]
    omega
  · rw [hit_mtimeNs_iff hr ho, Attr.Saturates, Attr.Saturates, Attr.Collides, OldEnough,
      BEFORE_RANGE]
    omega

/-- The `stat` of a directory last modified a number of seconds before 1970. -/
def directoryBefore (seconds : Int64) : Stat := ⟨⟨1, 4, 0o755, -seconds, 0⟩, .directory⟩

/-- A directory last modified five seconds before 1970 is no hit on an entry that is never valid. -/
theorem hit_same_stamp_iff_sample :
    ¬(⟨[], none, []⟩ : Entry).Hit 0 NEVER_VALID (mtimeNs (directoryBefore 5)) := by
  have hnanos : (directoryBefore 5).HasNanos := by decide
  exact (hit_same_stamp_iff hnanos hnanos _ 0).2.1.mpr (by decide)

/-- Ten and twenty thousand million seconds before 1970, in 1653 and in 1336, are one value, the one
that stands for no timestamp. -/
theorem hit_other_stamp :
    (∀ entry : Entry, entry.Hit 0 (mtimeNs (directoryBefore 10000000000))
      (mtimeNs (directoryBefore 20000000000))) ∧
    (directoryBefore 10000000000).mtime ≠ (directoryBefore 20000000000).mtime ∧
    ∀ entry : Entry, entry.Hit 0 NEVER_VALID (mtimeNs (directoryBefore 10000000000)) :=
  ⟨fun _ => Entry.hit_iff.mpr (by decide), by decide, fun _ => Entry.hit_iff.mpr (by decide)⟩

end Scap
