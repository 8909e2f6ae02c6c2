import Scap.Basic
import Scap.Foundations.Split
import Scap.Foundations.Utf8
import Scap.Text

/-!
# Configuration values

How the values of the `scap.*` keys are read, by both configuration backends (`src/config.rs`):
git's booleans, interpolated paths, and what the environment says instead.  Interpolation of `~` and
the lossy decoding of bytes are third-party code, and parameters.
-/

namespace Scap

namespace Config

/-- A path, as the bytes of an `OsString`. -/
abbrev PathBuf := Bytes

/-- The part of the environment the snapshot is read from. -/
structure Env where
  home : Option PathBuf
  /-- `SCAP_ROOT`. -/
  scapRoot : Option Bytes
  /-- `SCAP_LIST_EXCLUDE`. -/
  scapListExclude : Option Bytes
  /-- `SCAP_LIST_CACHE`. -/
  scapListCache : Option Bytes
deriving DecidableEq

/-- Which parser produced a snapshot. -/
inductive Backend where
  | inProcess | git
deriving DecidableEq

/-- Why a snapshot has the backend it has. -/
inductive Reason where
  | inProcess | urlSections | gitConfigCount | gitConfigParameters | includeifUnevaluated
  | systemProbeAmbiguous | envOverride
deriving DecidableEq

/-- The `scap.*` configuration of a process. -/
structure ConfigSnapshot where
  env : Env
  /-- Plain `scap.root` values in file order, interpolated. -/
  roots : List PathBuf
  /-- Every `[scap "<sub>"] root`, interpolated, in file order. -/
  urlScopedRoots : List PathBuf
  user : Option Str
  completeUser : Bool
  listExclude : List Str
  listCache : Bool
  backend : Backend
  reason : Reason
deriving DecidableEq

/-! ## Bytes -/

/-- `u8::to_ascii_lowercase`. -/
def lowerByte (b : UInt8) : UInt8 := if 0x41 ≤ b ∧ b ≤ 0x5a then b + 0x20 else b

/-- `[u8]::to_ascii_lowercase`. -/
def lower (s : Bytes) : Bytes := s.map lowerByte

/-- `[u8]::eq_ignore_ascii_case`. -/
def eqIgnoreAsciiCase (s t : Bytes) : Prop := lower s = lower t

instance (s t : Bytes) : Decidable (eqIgnoreAsciiCase s t) := inferInstanceAs (Decidable (_ = _))

/-! ## Booleans -/

/-- `char::to_digit`, for a radix that has the digit. -/
def digitValue (c : Char) : Option ℕ :=
  if '0' ≤ c ∧ c ≤ '9' then some (c.toNat - '0'.toNat)
  else if 'a' ≤ c ∧ c ≤ 'z' then some (c.toNat - 'a'.toNat + 10)
  else if 'A' ≤ c ∧ c ≤ 'Z' then some (c.toNat - 'A'.toNat + 10)
  else none

/-- `char::is_digit`. -/
def isDigit (radix : ℕ) (c : Char) : Bool := (digitValue c).any (· < radix)

/-- The number some digits spell. -/
def fromDigits (radix : ℕ) (digits : Str) : ℕ :=
  digits.foldl (fun n c => n * radix + (digitValue c).getD 0) 0

/-- The factor of a unit suffix. -/
def unitFactor (unit : Str) : Option ℕ :=
  match unit with
  | [] => some 1
  | ['k'] | ['K'] => some 1024
  | ['m'] | ['M'] => some (1024 * 1024)
  | ['g'] | ['G'] => some (1024 * 1024 * 1024)
  | _ => none

/-- `parse_git_int`. -/
def parseGitInt (text : Str) : Option ℤ :=
  let body := text.dropWhile fun c => [' ', '\t', '\n', '\r', '\x0b', '\x0c'].contains c
  let (negative, body) := match body with
    | '-' :: body => (true, body)
    | '+' :: body => (false, body)
    | body => (false, body)
  let (radix, digits) := match body with
    | '0' :: 'x' :: hex | '0' :: 'X' :: hex => (16, hex)
    | '0' :: c :: rest => (8, c :: rest)
    | body => (10, body)
  let number := digits.takeWhile (isDigit radix)
  if number = [] then none
  else
    let magnitude := fromDigits radix number
    if 2 ^ 63 ≤ magnitude then none
    else
      match unitFactor (digits.dropWhile (isDigit radix)) with
      | some factor =>
        let value := magnitude * factor
        if 2 ^ 63 ≤ value then none
        else if negative then some (-value) else some value
      | none => none

/-- `git_boolean`; a key without a value is true. -/
def gitBoolean (value : Option Bytes) : Bool :=
  match value with
  | none => true
  | some value =>
    if eqIgnoreAsciiCase value (ascii "yes".toList) ∨ eqIgnoreAsciiCase value (ascii "on".toList) ∨
        eqIgnoreAsciiCase value (ascii "true".toList) then true
    else if eqIgnoreAsciiCase value (ascii "no".toList) ∨
        eqIgnoreAsciiCase value (ascii "off".toList) ∨
        eqIgnoreAsciiCase value (ascii "false".toList) ∨ value = [] then false
    else ((fromUtf8 value).bind parseGitInt).any (· ≠ 0)

/-! ## Paths and patterns -/

/-- `std::env::split_paths`. -/
def splitPaths (value : Bytes) : List PathBuf := value.splitOn 0x3a

/-- `normalize_exclude`. -/
def normalizeExclude (pattern : Str) : Option Str :=
  let folded := (stripSuffix ['/'] pattern).getD pattern
  if folded = [] then none else some folded

section

variable (interpolate : Env → Bytes → Option PathBuf) (lossy : Bytes → Str)

/-- `interpolate_value`. -/
def interpolateValue (env : Env) (value : Bytes) : Option PathBuf :=
  if value = [] then none else some ((interpolate env value).getD (toBytes (lossy value)))

/-- `effective_list_exclude`. -/
def effectiveListExclude (env : Env) (fromConfig : List Str) : List Str :=
  match env.scapListExclude.filter (· ≠ []) with
  | none => fromConfig.filterMap normalizeExclude
  | some value => (splitPaths value).filterMap fun pattern => normalizeExclude (lossy pattern)

/-- `effective_list_cache`. -/
def effectiveListCache (env : Env) (fromConfig : Bool) : Bool :=
  match env.scapListCache.filter (· ≠ []) with
  | none => fromConfig
  | some value => gitBoolean (some value)

end

end Config

end Scap
