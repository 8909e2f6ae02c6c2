import Mathlib.Data.List.Basic
import Mathlib.Data.UInt
import Mathlib.Tactic.Common

/-!
# Bytes and machine integers

The types shared by the whole model.  File names, index files and gitconfig values are byte strings;
times are 64-bit signed numbers of nanoseconds and saturate where the source asks for saturation.
-/

namespace Scap

/-- A byte string. -/
abbrev Bytes := List UInt8

/-- The byte string of an ASCII literal. -/
def ascii (s : List Char) : Bytes := s.map Char.toUInt8

/-- The byte `/`. -/
def slash : UInt8 := 0x2f

/-- `b".git"`. -/
def dotGit : Bytes := ascii ['.', 'g', 'i', 't']

/-- `i64::saturating_sub`. -/
def saturatingSub (a b : Int64) : Int64 := Int64.ofIntClamp (a.toInt - b.toInt)

/-- `i64::saturating_add`. -/
def saturatingAdd (a b : Int64) : Int64 := Int64.ofIntClamp (a.toInt + b.toInt)

/-- `i64::saturating_mul`. -/
def saturatingMul (a b : Int64) : Int64 := Int64.ofIntClamp (a.toInt * b.toInt)

/-- Clamping moves a number to the nearest one in the range of an `i64`. -/
lemma toInt_ofIntClamp (x : ℤ) :
    (Int64.ofIntClamp x).toInt = max (-2 ^ 63) (min x (2 ^ 63 - 1)) := by
  have hmin := Int64.toInt_minValue
  have hmax := Int64.toInt_maxValue
  unfold Int64.ofIntClamp
  split
  · split
    · rw [Int64.toInt_ofIntLE]
      omega
    · omega
  · omega

/-- `saturating_sub` is the difference, or the bound it passes. -/
@[simp] lemma toInt_saturatingSub (a b : Int64) :
    (saturatingSub a b).toInt = max (-2 ^ 63) (min (a.toInt - b.toInt) (2 ^ 63 - 1)) :=
  toInt_ofIntClamp _

/-- `saturating_add` is the sum, or the bound it passes. -/
@[simp] lemma toInt_saturatingAdd (a b : Int64) :
    (saturatingAdd a b).toInt = max (-2 ^ 63) (min (a.toInt + b.toInt) (2 ^ 63 - 1)) :=
  toInt_ofIntClamp _

/-- `saturating_mul` is the product, or the bound it passes. -/
@[simp] lemma toInt_saturatingMul (a b : Int64) :
    (saturatingMul a b).toInt = max (-2 ^ 63) (min (a.toInt * b.toInt) (2 ^ 63 - 1)) :=
  toInt_ofIntClamp _

end Scap
