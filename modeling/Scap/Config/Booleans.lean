import Mathlib.Tactic.IntervalCases
import Scap.Config.Values

/-!
# Booleans

`git_boolean` and `parse_git_int` (`src/config.rs`) against the integers git reads: `Spells` is the
grammar of `strtoimax` with base 0 and of git's unit factors.

git reads its integers into 32 bits and stops at any other; `parse_git_int` keeps whatever fits into
64.  `gitBoolean_iff` says that the values in between are the only ones that the two disagree on,
and that no slice, product or negation of the function panics on any value.
-/

namespace Scap

namespace Config

/-! ## What git reads -/

/-- `isspace`, in the C locale. -/
def cSpaces : Str := [' ', '\t', '\n', '\r', '\x0b', '\x0c']

/-- An optional sign. -/
inductive Sign : Str → ℤ → Prop
  | none : Sign [] 1
  | plus : Sign ['+'] 1
  | minus : Sign ['-'] (-1)

/-- A number with the base its first characters say. -/
inductive Unsigned : Str → ℕ → Prop
  | hex {x : Char} {digits : Str} : x = 'x' ∨ x = 'X' → digits ≠ [] →
      (∀ c ∈ digits, isDigit 16 c = true) → Unsigned ('0' :: x :: digits) (fromDigits 16 digits)
  | octal {digits : Str} : (∀ c ∈ digits, isDigit 8 c = true) →
      Unsigned ('0' :: digits) (fromDigits 8 digits)
  | decimal {first : Char} {digits : Str} : first ≠ '0' →
      (∀ c ∈ first :: digits, isDigit 10 c = true) →
      Unsigned (first :: digits) (fromDigits 10 (first :: digits))

/-- An optional unit. -/
inductive Scale : Str → ℕ → Prop
  | none : Scale [] 1
  | kilo {c : Char} : c = 'k' ∨ c = 'K' → Scale [c] 1024
  | mega {c : Char} : c = 'm' ∨ c = 'M' → Scale [c] (1024 ^ 2)
  | giga {c : Char} : c = 'g' ∨ c = 'G' → Scale [c] (1024 ^ 3)

/-- The text is blanks, a sign, a number and a unit, and stands for the integer. -/
inductive Spells : Str → ℤ → Prop
  | mk {blanks sign number unit : Str} {s : ℤ} {magnitude factor : ℕ} :
      (∀ c ∈ blanks, c ∈ cSpaces) → Sign sign s → Unsigned number magnitude → Scale unit factor →
      Spells (blanks ++ sign ++ number ++ unit) (s * (magnitude * factor))

/-- The bytes spell the integer. -/
def SpelledBy (value : Bytes) (n : ℤ) : Prop := ∃ text, toBytes text = value ∧ Spells text n

/-- The integer fits into an `int`.  git bounds the absolute value by the greatest `int`, so it also
refuses the least one. -/
def FitsInt (n : ℤ) : Prop := -2 ^ 31 ≤ n ∧ n < 2 ^ 31

/-- git prints `true` for the value. -/
def GitTrue : Option Bytes → Prop
  | none => True
  | some value =>
    eqIgnoreAsciiCase value (ascii "yes".toList) ∨ eqIgnoreAsciiCase value (ascii "on".toList) ∨
      eqIgnoreAsciiCase value (ascii "true".toList) ∨ ∃ n, n ≠ 0 ∧ FitsInt n ∧ SpelledBy value n

/-- The value spells an integer that fits into 64 bits and not into 32. -/
def BeyondInt (value : Option Bytes) : Prop :=
  ∃ bytes n, value = some bytes ∧ SpelledBy bytes n ∧ ¬FitsInt n ∧ n.natAbs < 2 ^ 63

/-! ## The steps of `parse_git_int` -/

/-- The sign, and what follows it. -/
def signed : Str → Bool × Str
  | '-' :: body => (true, body)
  | '+' :: body => (false, body)
  | body => (false, body)

/-- The base, and the digits. -/
def based : Str → ℕ × Str
  | '0' :: 'x' :: hex | '0' :: 'X' :: hex => (16, hex)
  | '0' :: c :: rest => (8, c :: rest)
  | body => (10, body)

/-- The number, scaled by its unit. -/
def scaled (negative : Bool) (radix : ℕ) (digits : Str) : Option ℤ :=
  let number := digits.takeWhile (isDigit radix)
  if number = [] then none
  else
    let magnitude := fromDigits radix number
    if 2 ^ 63 ≤ magnitude then none
    else
      match unitFactor (digits.dropWhile (isDigit radix)) with
      | some factor =>
        let value := magnitude * factor
        if 2 ^ 63 ≤ value then none
        else if negative then some (-value) else some value
      | none => none

/-- `parse_git_int` takes a sign, a base, digits and a unit off, in this order. -/
lemma parseGitInt_eq (text : Str) :
    parseGitInt text =
      let body := signed (text.dropWhile cSpaces.contains)
      let digits := based body.2
      scaled body.1 digits.1 digits.2 := by
  rfl

/-! ## Characters -/

/-- A decimal digit is one of ten characters. -/
lemma mem_digits_of_isDigit {c : Char} (h : isDigit 10 c = true) : c ∈ "0123456789".toList := by
  obtain ⟨v, hv, hlt⟩ : ∃ v, digitValue c = some v ∧ v < 10 := by
    simpa [isDigit, Option.any_eq_true] using h
  unfold digitValue at hv
  split at hv
  · rename_i hc
    obtain ⟨hfrom, hto⟩ : 48 ≤ c.toNat ∧ c.toNat ≤ 57 := hc
    rw [← Char.ofNat_toNat c]
    interval_cases c.toNat <;> decide
  · split at hv
    · cases hv
      omega
    · split at hv
      · cases hv
        omega
      · cases hv

/-- No unit is a digit. -/
lemma Scale.not_isDigit {unit : Str} {factor : ℕ} (h : Scale unit factor) {c : Char}
    (hc : c ∈ unit) {radix : ℕ} (hradix : radix ≤ 16) : isDigit radix c = false := by
  have hlarge : ∀ v, digitValue c = some v → 16 ≤ v → isDigit radix c = false := by
    intro v hv hle
    rw [isDigit, hv, Option.any_some]
    exact decide_eq_false (by omega)
  cases h with
  | none => exact absurd hc List.not_mem_nil
  | kilo hunit =>
    obtain rfl := List.mem_singleton.mp hc
    rcases hunit with rfl | rfl
    · exact hlarge 20 (by decide) (by decide)
    · exact hlarge 20 (by decide) (by decide)
  | mega hunit =>
    obtain rfl := List.mem_singleton.mp hc
    rcases hunit with rfl | rfl
    · exact hlarge 22 (by decide) (by decide)
    · exact hlarge 22 (by decide) (by decide)
  | giga hunit =>
    obtain rfl := List.mem_singleton.mp hc
    rcases hunit with rfl | rfl
    · exact hlarge 16 (by decide) (by decide)
    · exact hlarge 16 (by decide) (by decide)

/-- A unit multiplies by a positive number. -/
lemma Scale.pos {unit : Str} {factor : ℕ} (h : Scale unit factor) : 0 < factor := by
  cases h <;> decide

/-- The source's table of units is git's. -/
lemma unitFactor_eq_some_iff {unit : Str} {factor : ℕ} :
    unitFactor unit = some factor ↔ Scale unit factor := by
  constructor
  · intro h
    unfold unitFactor at h
    split at h
    · cases h
      exact .none
    · cases h
      exact .kilo (.inl rfl)
    · cases h
      exact .kilo (.inr rfl)
    · cases h
      exact .mega (.inl rfl)
    · cases h
      exact .mega (.inr rfl)
    · cases h
      exact .giga (.inl rfl)
    · cases h
      exact .giga (.inr rfl)
    · cases h
  · rintro (_ | hc | hc | hc)
    · rfl
    all_goals rcases hc with rfl | rfl <;> rfl

/-! ## Signs, bases and units -/

/-- A sign leaves the magnitude as it is. -/
lemma Sign.natAbs_mul {sign : Str} {s : ℤ} (h : Sign sign s) (m : ℕ) : (s * m).natAbs = m := by
  cases h <;> simp

/-- The sign that is read, and what it does to a number. -/
lemma exists_sign (body : Str) :
    ∃ sign s, Sign sign s ∧ body = sign ++ (signed body).2 ∧
      ∀ m : ℤ, (if (signed body).1 then -m else m) = s * m := by
  unfold signed
  split
  · exact ⟨_, _, .minus, rfl, fun m => (neg_one_mul m).symm⟩
  · exact ⟨_, _, .plus, rfl, fun m => (one_mul m).symm⟩
  · exact ⟨_, _, .none, rfl, fun m => (one_mul m).symm⟩

/-- A sign before a digit is read as the sign. -/
lemma Sign.signed_append {sign : Str} {s : ℤ} (h : Sign sign s) {first : Char}
    (hfirst : isDigit 10 first = true) (rest : Str) :
    (signed (sign ++ first :: rest)).2 = first :: rest ∧
      ∀ m : ℤ, (if (signed (sign ++ first :: rest)).1 then -m else m) = s * m := by
  cases h with
  | minus => exact ⟨rfl, fun m => (neg_one_mul m).symm⟩
  | plus => exact ⟨rfl, fun m => (one_mul m).symm⟩
  | none =>
    have hsigned : signed (first :: rest) = (false, first :: rest) := by
      unfold signed
      split
      · rename_i heq
        cases heq
        exact absurd hfirst (by decide)
      · rename_i heq
        cases heq
        exact absurd hfirst (by decide)
      · rfl
    rw [List.nil_append, hsigned]
    exact ⟨rfl, fun m => (one_mul m).symm⟩

/-- What begins with a sign or a digit begins with no blank. -/
lemma Sign.head?_append {sign : Str} {s : ℤ} (h : Sign sign s) {first : Char}
    (hfirst : isDigit 10 first = true) (rest : Str) :
    ∀ c ∈ (sign ++ first :: rest).head?, cSpaces.contains c = false := by
  intro c hc
  cases h with
  | minus =>
    obtain rfl : '-' = c := Option.some.inj hc
    decide
  | plus =>
    obtain rfl : '+' = c := Option.some.inj hc
    decide
  | none =>
    obtain rfl : first = c := Option.some.inj hc
    exact forall_mem_of_all (p := fun c => cSpaces.contains c = false) (by decide) first
      (mem_digits_of_isDigit hfirst)

/-- How the base is read. -/
lemma based_cases (body : Str) :
    (∃ x hex, (x = 'x' ∨ x = 'X') ∧ body = '0' :: x :: hex ∧ based body = (16, hex)) ∨
      (∃ c rest, c ≠ 'x' ∧ c ≠ 'X' ∧ body = '0' :: c :: rest ∧ based body = (8, c :: rest)) ∨
      ((∀ c rest, body ≠ '0' :: c :: rest) ∧ based body = (10, body)) := by
  unfold based
  split
  · exact .inl ⟨_, _, .inl rfl, rfl, rfl⟩
  · exact .inl ⟨_, _, .inr rfl, rfl, rfl⟩
  · rename_i c rest hx hX
    exact .inr (.inl ⟨c, rest, hx, hX, rfl, rfl⟩)
  · rename_i hother
    exact .inr (.inr ⟨hother, rfl⟩)

/-- The base is at most 16. -/
lemma based_le (body : Str) : (based body).1 ≤ 16 := by
  obtain ⟨x, hex, -, -, hbased⟩ | ⟨c, rest, -, -, -, hbased⟩ | ⟨-, hbased⟩ := based_cases body
  · exact hbased ▸ Nat.le_refl 16
  · exact hbased ▸ Nat.le_of_ble_eq_true rfl
  · exact hbased ▸ Nat.le_of_ble_eq_true rfl

/-- The digits that are read, with those before them, are a number. -/
lemma exists_unsigned {body number unit : Str} (hnumber : number ≠ [])
    (hdigits : ∀ c ∈ number, isDigit (based body).1 c = true)
    (hbody : (based body).2 = number ++ unit) :
    ∃ whole, body = whole ++ unit ∧ Unsigned whole (fromDigits (based body).1 number) := by
  obtain ⟨x, hex, hx, rfl, hbased⟩ | ⟨c, rest, -, -, rfl, hbased⟩ | ⟨hother, hbased⟩ :=
    based_cases body
  · rw [hbased] at hdigits hbody ⊢
    obtain rfl : hex = number ++ unit := hbody
    exact ⟨'0' :: x :: number, rfl, .hex hx hnumber hdigits⟩
  · rw [hbased] at hdigits hbody ⊢
    have hrest : c :: rest = number ++ unit := hbody
    exact ⟨'0' :: number, congrArg _ hrest, .octal hdigits⟩
  · rw [hbased] at hdigits hbody ⊢
    obtain rfl : body = number ++ unit := hbody
    obtain ⟨first, digits, rfl⟩ := List.exists_cons_of_ne_nil hnumber
    by_cases hzero : first = '0'
    · -- a lone `0` is decimal to the source and octal to git
      subst hzero
      have hnil : digits ++ unit = [] := by
        cases hrest : digits ++ unit with
        | nil => rfl
        | cons c rest => exact absurd (congrArg (List.cons '0') hrest) (hother c rest)
      obtain ⟨rfl, rfl⟩ := List.append_eq_nil_iff.mp hnil
      exact ⟨['0'], rfl, .octal (by simp)⟩
    · exact ⟨first :: digits, rfl, .decimal hzero hdigits⟩

/-- A number before a unit is read with its base, unless it is nothing but zero. -/
lemma Unsigned.based_append {number : Str} {magnitude : ℕ} (h : Unsigned number magnitude)
    (unit : Str) (hpos : magnitude ≠ 0) :
    ∃ radix digits, based (number ++ unit) = (radix, digits ++ unit) ∧ radix ≤ 16 ∧ digits ≠ [] ∧
      (∀ c ∈ digits, isDigit radix c = true) ∧ fromDigits radix digits = magnitude := by
  cases h with
  | @hex x digits hx hne hdigits =>
    have hbased : based ('0' :: x :: digits ++ unit) = (16, digits ++ unit) := by
      rcases hx with rfl | rfl <;> rfl
    exact ⟨16, digits, hbased, by decide, hne, hdigits, rfl⟩
  | @octal digits hdigits =>
    cases digits with
    | nil => exact absurd rfl hpos
    | cons d digits =>
      have hbased : based ('0' :: d :: digits ++ unit) = (8, d :: digits ++ unit) := by
        have hd := hdigits d (List.mem_cons_self ..)
        obtain ⟨x, hex, hx, heq, -⟩ | ⟨c, rest, -, -, heq, hbased⟩ | ⟨hother, -⟩ :=
          based_cases ('0' :: d :: digits ++ unit)
        · obtain rfl : d = x := (List.cons.inj (List.cons.inj heq).2).1
          rcases hx with rfl | rfl <;> exact absurd hd (by decide)
        · rw [hbased, ← (List.cons.inj heq).2]
          rfl
        · exact absurd rfl (hother _ _)
      exact ⟨8, d :: digits, hbased, by decide, List.cons_ne_nil _ _, hdigits, rfl⟩
  | @decimal first digits hfirst hdigits =>
    have hbased : based (first :: digits ++ unit) = (10, first :: digits ++ unit) := by
      obtain ⟨x, hex, -, heq, -⟩ | ⟨c, rest, -, -, heq, -⟩ | ⟨-, hbased⟩ :=
        based_cases (first :: digits ++ unit)
      · exact absurd (List.cons.inj heq).1 hfirst
      · exact absurd (List.cons.inj heq).1 hfirst
      · exact hbased
    exact ⟨10, first :: digits, hbased, by decide, List.cons_ne_nil _ _, hdigits, rfl⟩

/-- What is read of digits and a unit: all the digits, if a unit is left and the number fits. -/
lemma scaled_eq_some_iff {negative : Bool} {radix : ℕ} (hradix : radix ≤ 16) {text : Str} {n : ℤ} :
    scaled negative radix text = some n ↔
      ∃ digits unit factor, text = digits ++ unit ∧ digits ≠ [] ∧
        (∀ c ∈ digits, isDigit radix c = true) ∧ Scale unit factor ∧
        fromDigits radix digits * factor < 2 ^ 63 ∧
        n = if negative then -(fromDigits radix digits * factor : ℤ)
          else fromDigits radix digits * factor := by
  constructor
  · intro h
    unfold scaled at h
    simp only at h
    split at h
    · cases h
    · rename_i hne
      split at h
      · cases h
      · split at h
        · rename_i factor hunit
          split at h
          · cases h
          · rename_i hlt
            refine ⟨_, _, factor, List.takeWhile_append_dropWhile.symm, hne,
              fun c hc => List.mem_takeWhile_imp hc, unitFactor_eq_some_iff.mp hunit,
              Nat.lt_of_not_le hlt, ?_⟩
            split at h <;> simp_all
        · cases h
  · rintro ⟨digits, unit, factor, rfl, hne, hdigits, hunit, hlt, rfl⟩
    have hstop : ∀ c ∈ unit.head?, isDigit radix c = false := fun c hc =>
      hunit.not_isDigit (List.mem_of_mem_head? hc) hradix
    obtain ⟨htake, hdrop⟩ := takeWhile_dropWhile_append hdigits hstop
    have hmagnitude : fromDigits radix digits < 2 ^ 63 :=
      (Nat.le_mul_of_pos_right _ hunit.pos).trans_lt hlt
    unfold scaled
    rw [htake, hdrop, unitFactor_eq_some_iff.mpr hunit]
    simp only [if_neg hne, if_neg (Nat.not_le_of_lt hmagnitude), if_neg (Nat.not_le_of_lt hlt)]
    cases negative <;> simp

/-! ## What `parse_git_int` accepts -/

/-- A number begins with a decimal digit. -/
lemma Unsigned.exists_first {number : Str} {magnitude : ℕ} (h : Unsigned number magnitude) :
    ∃ first rest, number = first :: rest ∧ isDigit 10 first = true := by
  cases h with
  | hex => exact ⟨_, _, rfl, by decide⟩
  | octal => exact ⟨_, _, rfl, by decide⟩
  | decimal _ hdigits => exact ⟨_, _, rfl, hdigits _ (List.mem_cons_self ..)⟩

/-- What is accepted is an integer git reads, and fits into 64 bits. -/
lemma spells_of_parseGitInt {text : Str} {n : ℤ} (h : parseGitInt text = some n) :
    Spells text n ∧ n.natAbs < 2 ^ 63 := by
  rw [parseGitInt_eq] at h
  simp only at h
  have hblanks : ∀ c ∈ text.takeWhile cSpaces.contains, c ∈ cSpaces := fun c hc =>
    List.contains_iff_mem.mp (List.mem_takeWhile_imp hc)
  have htext : text.takeWhile cSpaces.contains ++ text.dropWhile cSpaces.contains = text :=
    List.takeWhile_append_dropWhile
  generalize text.takeWhile cSpaces.contains = blanks at hblanks htext
  generalize text.dropWhile cSpaces.contains = body at h htext
  obtain ⟨sign, s, hsign, hbody, hs⟩ := exists_sign body
  generalize signed body = read at h hbody hs
  obtain ⟨negative, rest⟩ := read
  simp only at h hbody hs
  obtain ⟨digits, unit, factor, hdigits, hne, hall, hunit, hlt, rfl⟩ :=
    (scaled_eq_some_iff (based_le _)).mp h
  obtain ⟨number, hnumber, hunsigned⟩ := exists_unsigned hne hall hdigits
  generalize fromDigits (based rest).1 digits = magnitude at hlt hunsigned ⊢
  rw [hs, ← htext, hbody, hnumber, ← List.append_assoc, ← List.append_assoc]
  refine ⟨.mk hblanks hsign hunsigned hunit, ?_⟩
  rw [← Nat.cast_mul, hsign.natAbs_mul]
  exact hlt

/-- An integer git reads that is not zero is accepted if it fits into 64 bits. -/
lemma parseGitInt_of_spells {text : Str} {n : ℤ} (h : Spells text n) (hne : n ≠ 0)
    (hlt : n.natAbs < 2 ^ 63) : parseGitInt text = some n := by
  obtain @⟨blanks, sign, number, unit, s, magnitude, factor, hblanks, hsign, hnumber, hunit⟩ := h
  have hpos : magnitude ≠ 0 := by
    rintro rfl
    simp at hne
  obtain ⟨first, rest, hfirst, hdigit⟩ := hnumber.exists_first
  obtain ⟨radix, digits, hbased, hradix, hdigitsNe, hdigits, rfl⟩ := hnumber.based_append unit hpos
  subst hfirst
  have hstart : ∀ c ∈ (sign ++ (first :: rest ++ unit)).head?, cSpaces.contains c = false :=
    hsign.head?_append hdigit _
  have hskip : (blanks ++ sign ++ (first :: rest) ++ unit).dropWhile cSpaces.contains =
      sign ++ (first :: rest ++ unit) := by
    rw [List.append_assoc, List.append_assoc]
    exact (takeWhile_dropWhile_append (fun c hc => List.contains_iff_mem.mpr (hblanks c hc))
      hstart).2
  obtain ⟨hread, hs⟩ := hsign.signed_append hdigit (rest ++ unit)
  rw [← Nat.cast_mul, hsign.natAbs_mul] at hlt
  rw [parseGitInt_eq, hskip]
  simp only [List.cons_append] at hread hs hbased ⊢
  rw [hread, hbased, scaled_eq_some_iff hradix]
  refine ⟨digits, unit, factor, rfl, hdigitsNe, hdigits, hunit, hlt, ?_⟩
  rw [hs]

/-! ## What `git_boolean` accepts -/

section Words

variable {value : Bytes} {n : ℤ}

/-- What spells an integer has a digit in it. -/
lemma SpelledBy.exists_digit (h : SpelledBy value n) :
    ∃ x ∈ value, x ∈ ascii "0123456789".toList := by
  obtain ⟨text, rfl, @⟨blanks, sign, number, unit, s, magnitude, factor, -, -, hnumber, -⟩⟩ := h
  obtain ⟨first, rest, rfl, hdigit⟩ := hnumber.exists_first
  have hfirst := mem_digits_of_isDigit hdigit
  obtain ⟨hlt, hbytes⟩ : first.toUInt8 < 0x80 ∧ toBytes [first] = [first.toUInt8] :=
    forall_mem_of_all (p := fun c => c.toUInt8 < 0x80 ∧ toBytes [c] = [c.toUInt8]) (by decide)
      first hfirst
  exact ⟨first.toUInt8, (mem_toBytes_iff hlt hbytes).mpr (by simp), List.mem_map_of_mem hfirst⟩

/-- What spells an integer is no word without digits. -/
lemma SpelledBy.ne_word (h : SpelledBy value n) {word : Bytes}
    (hword : ∀ x ∈ ascii "0123456789".toList, x ∉ lower word) : ¬eqIgnoreAsciiCase value word := by
  intro heq
  obtain ⟨x, hx, hdigit⟩ := h.exists_digit
  have hlower : lowerByte x = x :=
    forall_mem_of_all (p := fun x => lowerByte x = x) (by decide) x hdigit
  refine hword x hdigit ?_
  rw [← heq, ← hlower]
  exact List.mem_map_of_mem hx

/-- Bytes spell at most one integer that fits into 64 bits, zero apart. -/
lemma SpelledBy.parse (h : SpelledBy value n) (hne : n ≠ 0) (hlt : n.natAbs < 2 ^ 63) :
    (fromUtf8 value).bind parseGitInt = some n := by
  obtain ⟨text, rfl, hspells⟩ := h
  rw [fromUtf8_toBytes]
  exact parseGitInt_of_spells hspells hne hlt

/-- `git_boolean` is true of the words for it, and of the integers that fit into 64 bits. -/
lemma gitBoolean_some_iff (value : Bytes) :
    gitBoolean (some value) = true ↔
      eqIgnoreAsciiCase value (ascii "yes".toList) ∨ eqIgnoreAsciiCase value (ascii "on".toList) ∨
        eqIgnoreAsciiCase value (ascii "true".toList) ∨
        ∃ n, n ≠ 0 ∧ n.natAbs < 2 ^ 63 ∧ SpelledBy value n := by
  unfold gitBoolean
  simp only
  split
  · rename_i hword
    tauto
  · rename_i hword
    split
    · rename_i hfalse
      refine iff_of_false Bool.false_ne_true ?_
      rintro (hyes | hon | htrue | ⟨n, -, -, hspelled⟩)
      · exact hword (.inl hyes)
      · exact hword (.inr (.inl hon))
      · exact hword (.inr (.inr htrue))
      · rcases hfalse with hno | hoff | hfalse | rfl
        · exact hspelled.ne_word (forall_mem_of_all (by decide)) hno
        · exact hspelled.ne_word (forall_mem_of_all (by decide)) hoff
        · exact hspelled.ne_word (forall_mem_of_all (by decide)) hfalse
        · obtain ⟨x, hx, -⟩ := hspelled.exists_digit
          exact absurd hx List.not_mem_nil
    · rw [Option.any_eq_true]
      constructor
      · rintro ⟨n, hparse, hne⟩
        obtain ⟨text, htext, hint⟩ := Option.bind_eq_some_iff.mp hparse
        obtain ⟨hspells, hlt⟩ := spells_of_parseGitInt hint
        exact .inr (.inr (.inr ⟨n, of_decide_eq_true hne, hlt, text,
          fromUtf8_eq_some_iff.mp htext, hspells⟩))
      · rintro (hyes | hon | htrue | ⟨n, hne, hlt, hspelled⟩)
        · exact absurd (.inl hyes) hword
        · exact absurd (.inr (.inl hon)) hword
        · exact absurd (.inr (.inr htrue)) hword
        · exact ⟨n, hspelled.parse hne hlt, decide_eq_true hne⟩

end Words

/-- What fits into an `int` is a magnitude below 2^63. -/
lemma FitsInt.natAbs_lt {n : ℤ} (h : FitsInt n) : n.natAbs < 2 ^ 63 := by
  obtain ⟨hfrom, hto⟩ := h
  omega

/-- `git_boolean` and git agree on every value but those that spell an integer of more than 32 and
at most 64 bits. -/
lemma gitBoolean_agrees_iff (value : Option Bytes) :
    (gitBoolean value = true ↔ GitTrue value) ↔ ¬BeyondInt value := by
  cases value with
  | none => exact iff_of_true (iff_of_true rfl trivial) fun ⟨bytes, n, hsome, _⟩ => by cases hsome
  | some value =>
    rw [gitBoolean_some_iff, GitTrue]
    constructor
    · rintro hagree ⟨bytes, n, hsome, hspelled, hnot, hlt⟩
      obtain rfl : value = bytes := Option.some.inj hsome
      have hne : n ≠ 0 := by
        rintro rfl
        exact hnot ⟨by decide, by decide⟩
      rcases hagree.mp (.inr (.inr (.inr ⟨n, hne, hlt, hspelled⟩))) with
        hyes | hon | htrue | ⟨m, hm, hfits, hspelled'⟩
      · exact hspelled.ne_word (forall_mem_of_all (by decide)) hyes
      · exact hspelled.ne_word (forall_mem_of_all (by decide)) hon
      · exact hspelled.ne_word (forall_mem_of_all (by decide)) htrue
      · have hparse := (hspelled.parse hne hlt).symm.trans (hspelled'.parse hm hfits.natAbs_lt)
        exact hnot (Option.some.inj hparse ▸ hfits)
    · intro hbeyond
      have hint : (∃ n, n ≠ 0 ∧ n.natAbs < 2 ^ 63 ∧ SpelledBy value n) ↔
          ∃ n, n ≠ 0 ∧ FitsInt n ∧ SpelledBy value n := by
        constructor
        · rintro ⟨n, hne, hlt, hspelled⟩
          refine ⟨n, hne, ?_, hspelled⟩
          by_contra hnot
          exact hbeyond ⟨value, n, rfl, hspelled, hnot, hlt⟩
        · rintro ⟨n, hne, hfits, hspelled⟩
          exact ⟨n, hne, hfits.natAbs_lt, hspelled⟩
      rw [hint]

/-! ## Nothing panics -/

/-- Why an operation of `parse_git_int` panics. -/
inductive IntPanic where
  | notCharBoundary
  | negateWithOverflow
deriving Repr, DecidableEq

/-- `&s[n..]`. -/
def sliceFrom (s : Str) (n : ℕ) : Except IntPanic Str :=
  match splitAtByte? s n with
  | some (_, rest) => .ok rest
  | none => .error .notCharBoundary

/-- `&s[..n]`. -/
def sliceTo (s : Str) (n : ℕ) : Except IntPanic Str :=
  match splitAtByte? s n with
  | some (start, _) => .ok start
  | none => .error .notCharBoundary

/-- `str::find`. -/
def findByte (p : Char → Bool) (s : Str) : Option ℕ :=
  if s.any p then some (byteLen (s.takeWhile fun c => !p c)) else none

/-- `i64::from_str_radix`, of digits. -/
def i64FromStrRadix (radix : ℕ) (digits : Str) : Option Int64 :=
  if fromDigits radix digits < 2 ^ 63 then some (Int64.ofInt (fromDigits radix digits)) else none

/-- `i64::checked_mul`. -/
def checkedMul (a b : Int64) : Option Int64 :=
  if -2 ^ 63 ≤ a.toInt * b.toInt ∧ a.toInt * b.toInt < 2 ^ 63 then
    some (Int64.ofInt (a.toInt * b.toInt))
  else none

/-- `-a` on `i64`. -/
def negate (a : Int64) : Except IntPanic Int64 :=
  if a.toInt = -2 ^ 63 then .error .negateWithOverflow else .ok (Int64.ofInt (-a.toInt))

/-- The sign, by the first byte. -/
def signedChecked (body : Str) : Except IntPanic (Bool × Str) :=
  if (toBytes body).head? = some 0x2d then do return (true, ← sliceFrom body 1)
  else if (toBytes body).head? = some 0x2b then do return (false, ← sliceFrom body 1)
  else return (false, body)

/-- The base, and the digits. -/
def basedChecked (body : Str) : Except IntPanic (ℕ × Str) :=
  match (stripStart "0x".toList body).or (stripStart "0X".toList body) with
  | some hex => return (16, hex)
  | none =>
    if 1 < byteLen body ∧ body.head? = some '0' then do return (8, ← sliceFrom body 1)
    else return (10, body)

/-- The number, scaled by its unit. -/
def scaledChecked (negative : Bool) (radix : ℕ) (digits : Str) :
    Except IntPanic (Option Int64) := do
  let consumed := (findByte (fun c => !isDigit radix c) digits).getD (byteLen digits)
  if consumed = 0 then return none
  match i64FromStrRadix radix (← sliceTo digits consumed) with
  | none => return none
  | some magnitude =>
    match unitFactor (← sliceFrom digits consumed) with
    | none => return none
    | some factor =>
      match checkedMul magnitude (Int64.ofInt factor) with
      | none => return none
      | some value => if negative then return some (← negate value) else return some value

/-- `parse_git_int`, with every operation that can panic doing so. -/
def parseGitIntChecked (text : Str) : Except IntPanic (Option Int64) := do
  let (negative, body) ← signedChecked (text.dropWhile cSpaces.contains)
  let (radix, digits) ← basedChecked body
  scaledChecked negative radix digits

/-- A slice from the end of a prefix is what follows it. -/
lemma sliceFrom_append (s t : Str) : sliceFrom (s ++ t) (byteLen s) = .ok t := by
  rw [sliceFrom, splitAtByte?_append]

/-- A slice to the end of a prefix is the prefix. -/
lemma sliceTo_append (s t : Str) : sliceTo (s ++ t) (byteLen s) = .ok s := by
  rw [sliceTo, splitAtByte?_append]

/-- Where the first character that is none of them is found, they end. -/
lemma findByte_getD (p : Char → Bool) (s : Str) :
    (findByte (fun c => !p c) s).getD (byteLen s) = byteLen (s.takeWhile p) := by
  unfold findByte
  split
  · simp only [Bool.not_not, Option.getD_some]
  · rename_i hnone
    have hall : ∀ c ∈ s, p c = true := by simpa using hnone
    rw [Option.getD_none, List.takeWhile_eq_self_iff.mpr hall]

/-- No slice fails in taking off a sign. -/
lemma signedChecked_eq (body : Str) : signedChecked body = .ok (signed body) := by
  cases body with
  | nil => rfl
  | cons c rest =>
    have hminus : (toBytes (c :: rest)).head? = some 0x2d ↔ c = '-' :=
      head?_toBytes_cons_iff (by decide) (by decide)
    have hplus : (toBytes (c :: rest)).head? = some 0x2b ↔ c = '+' :=
      head?_toBytes_cons_iff (by decide) (by decide)
    unfold signedChecked
    by_cases hc : c = '-'
    · rw [if_pos (hminus.mpr hc), hc]
      rw [show sliceFrom ('-' :: rest) 1 = .ok rest from sliceFrom_append ['-'] rest]
      rfl
    · rw [if_neg (mt hminus.mp hc)]
      by_cases hc' : c = '+'
      · rw [if_pos (hplus.mpr hc'), hc']
        rw [show sliceFrom ('+' :: rest) 1 = .ok rest from sliceFrom_append ['+'] rest]
        rfl
      · rw [if_neg (mt hplus.mp hc')]
        unfold signed
        split
        · rename_i heq
          exact absurd (List.cons.inj heq).1 hc
        · rename_i heq
          exact absurd (List.cons.inj heq).1 hc'
        · rfl

/-- No slice fails in taking off the base. -/
lemma basedChecked_eq (body : Str) : basedChecked body = .ok (based body) := by
  obtain ⟨x, hex, hx, rfl, hbased⟩ | ⟨c, rest, hx, hX, rfl, hbased⟩ | ⟨hother, hbased⟩ :=
    based_cases body
  · rw [hbased]
    rcases hx with rfl | rfl <;> rfl
  · have hlower : stripStart "0x".toList ('0' :: c :: rest) = none := by
      refine if_neg fun hpre => ?_
      obtain ⟨tail, htail⟩ := hpre
      exact hx (List.cons.inj (List.cons.inj htail).2).1.symm
    have hupper : stripStart "0X".toList ('0' :: c :: rest) = none := by
      refine if_neg fun hpre => ?_
      obtain ⟨tail, htail⟩ := hpre
      exact hX (List.cons.inj (List.cons.inj htail).2).1.symm
    have hlen : 1 < byteLen ('0' :: c :: rest) := by
      have hzero : '0'.utf8Size = 1 := by decide
      have hpos := c.utf8Size_pos
      rw [byteLen_cons, byteLen_cons, hzero]
      omega
    unfold basedChecked
    rw [hbased, hlower, hupper]
    simp only [Option.or_none]
    rw [if_pos ⟨hlen, rfl⟩]
    rw [show sliceFrom ('0' :: c :: rest) 1 = .ok (c :: rest) from sliceFrom_append ['0'] _]
    rfl
  · have hlower : stripStart "0x".toList body = none :=
      if_neg fun ⟨tail, htail⟩ => hother 'x' tail htail.symm
    have hupper : stripStart "0X".toList body = none :=
      if_neg fun ⟨tail, htail⟩ => hother 'X' tail htail.symm
    have hlone : ¬(1 < byteLen body ∧ body.head? = some '0') := by
      rintro ⟨hlen, hhead⟩
      obtain ⟨rest, rfl⟩ := List.head?_eq_some_iff.mp hhead
      cases rest with
      | nil => exact absurd hlen (by decide)
      | cons c rest => exact hother c rest rfl
    unfold basedChecked
    rw [hbased, hlower, hupper]
    simp only [Option.or_none]
    rw [if_neg hlone]
    rfl

/-- A unit multiplies by a number below 2^63. -/
lemma Scale.lt {unit : Str} {factor : ℕ} (h : Scale unit factor) : factor < 2 ^ 63 := by
  cases h <;> decide

/-- A number below 2^63 is itself as an `i64`. -/
lemma toInt_ofInt_natCast {n : ℕ} (h : n < 2 ^ 63) : (Int64.ofInt n).toInt = n :=
  Int64.toInt_ofInt_of_le (by omega) (by omega)

/-- A product of a number and a unit is checked against the range of an `i64`. -/
lemma checkedMul_natCast {m f : ℕ} (hm : m < 2 ^ 63) (hf : f < 2 ^ 63) :
    checkedMul (Int64.ofInt m) (Int64.ofInt f) =
      if m * f < 2 ^ 63 then some (Int64.ofInt (m * f : ℕ)) else none := by
  unfold checkedMul
  rw [toInt_ofInt_natCast hm, toInt_ofInt_natCast hf, ← Nat.cast_mul]
  by_cases hlt : m * f < 2 ^ 63
  · rw [if_pos hlt, if_pos (by omega)]
  · rw [if_neg hlt, if_neg (by omega)]

/-- A number that is not negative has a negation. -/
lemma negate_natCast {n : ℕ} (h : n < 2 ^ 63) :
    negate (Int64.ofInt n) = .ok (Int64.ofInt (-n)) := by
  rw [negate, toInt_ofInt_natCast h, if_neg (by omega)]

/-- No operation overflows in reading the digits and scaling, and the value is the same. -/
lemma scaledChecked_eq (negative : Bool) (radix : ℕ) (digits : Str) :
    ∃ value, scaledChecked negative radix digits = .ok value ∧
      value.map Int64.toInt = scaled negative radix digits := by
  have hsplit : digits.takeWhile (isDigit radix) ++ digits.dropWhile (isDigit radix) = digits :=
    List.takeWhile_append_dropWhile
  unfold scaledChecked scaled
  rw [findByte_getD]
  generalize digits.takeWhile (isDigit radix) = number at hsplit ⊢
  generalize digits.dropWhile (isDigit radix) = unit at hsplit ⊢
  subst hsplit
  simp only [sliceTo_append, sliceFrom_append, byteLen_eq_zero_iff]
  by_cases hnil : number = []
  · exact ⟨none, by rw [if_pos hnil]; rfl, by rw [if_pos hnil]; rfl⟩
  rw [if_neg hnil, if_neg hnil]
  simp only [bind, Except.bind, pure, Except.pure, i64FromStrRadix]
  by_cases hmagnitude : fromDigits radix number < 2 ^ 63
  · rw [if_pos hmagnitude, if_neg (Nat.not_le_of_lt hmagnitude)]
    cases hunit : unitFactor unit with
    | none => exact ⟨none, rfl, rfl⟩
    | some factor =>
      have hfactor : factor < 2 ^ 63 := (unitFactor_eq_some_iff.mp hunit).lt
      simp only [checkedMul_natCast hmagnitude hfactor]
      by_cases hvalue : fromDigits radix number * factor < 2 ^ 63
      · simp only [if_pos hvalue, if_neg (Nat.not_le_of_lt hvalue)]
        cases negative with
        | true =>
          refine ⟨some (Int64.ofInt (-(fromDigits radix number * factor : ℕ))), ?_, ?_⟩
          · simp only [negate_natCast hvalue, if_true]
          · exact congrArg some (Int64.toInt_ofInt_of_le (by omega) (by omega))
        | false => exact ⟨_, rfl, congrArg some (toInt_ofInt_natCast hvalue)⟩
      · rw [if_neg hvalue, if_pos (Nat.le_of_not_lt hvalue)]
        exact ⟨none, rfl, rfl⟩
  · rw [if_neg hmagnitude, if_pos (Nat.le_of_not_lt hmagnitude)]
    exact ⟨none, rfl, rfl⟩

/-- `git_boolean`, with the operations of `parse_git_int` that can panic doing so. -/
def gitBooleanChecked (value : Option Bytes) : Except IntPanic Bool :=
  match value with
  | none => return true
  | some value =>
    if eqIgnoreAsciiCase value (ascii "yes".toList) ∨ eqIgnoreAsciiCase value (ascii "on".toList) ∨
        eqIgnoreAsciiCase value (ascii "true".toList) then return true
    else if eqIgnoreAsciiCase value (ascii "no".toList) ∨
        eqIgnoreAsciiCase value (ascii "off".toList) ∨
        eqIgnoreAsciiCase value (ascii "false".toList) ∨ value = [] then return false
    else
      match fromUtf8 value with
      | none => return false
      | some text => do return (← parseGitIntChecked text).any fun int => int.toInt ≠ 0

/-- No value makes `parse_git_int` panic. -/
lemma parseGitIntChecked_eq (text : Str) :
    ∃ value, parseGitIntChecked text = .ok value ∧ value.map Int64.toInt = parseGitInt text := by
  obtain ⟨value, hscaled, hvalue⟩ :=
    scaledChecked_eq (signed (text.dropWhile cSpaces.contains)).1
      (based (signed (text.dropWhile cSpaces.contains)).2).1
      (based (signed (text.dropWhile cSpaces.contains)).2).2
  refine ⟨value, ?_, hvalue⟩
  unfold parseGitIntChecked
  rw [signedChecked_eq]
  simp only [bind, Except.bind]
  rw [basedChecked_eq]
  exact hscaled

/-- `git_boolean` does not panic, on any value. -/
lemma gitBooleanChecked_eq (value : Option Bytes) :
    gitBooleanChecked value = .ok (gitBoolean value) := by
  cases value with
  | none => rfl
  | some value =>
    unfold gitBooleanChecked gitBoolean
    simp only
    split
    · rfl
    · split
      · rfl
      · cases htext : fromUtf8 value with
        | none => rfl
        | some text =>
          obtain ⟨read, hread, hvalue⟩ := parseGitIntChecked_eq text
          rw [Option.bind_some, ← hvalue, Option.any_map]
          simp only [hread]
          rfl

/-- `git_boolean` panics on no value, and reads a value as git does exactly when it does not spell
an integer of more than 32 bits that fits into 64. -/
theorem gitBoolean_iff (value : Option Bytes) :
    gitBooleanChecked value = .ok (gitBoolean value) ∧
      ((gitBoolean value = true ↔ GitTrue value) ↔ ¬BeyondInt value) :=
  ⟨gitBooleanChecked_eq value, gitBoolean_agrees_iff value⟩

/-- `3g` is true to the source, and too large for git. -/
theorem gitBoolean_3g :
    gitBoolean (some (ascii "3g".toList)) = true ∧ ¬GitTrue (some (ascii "3g".toList)) := by
  have htrue : gitBoolean (some (ascii "3g".toList)) = true := by decide
  have hnumber : Unsigned ['3'] (fromDigits 10 ['3']) :=
    .decimal (by decide) (forall_mem_of_all (by decide))
  have hspells : Spells ([] ++ [] ++ ['3'] ++ ['g']) (1 * (fromDigits 10 ['3'] * (1024 ^ 3 : ℕ))) :=
    .mk (by simp) .none hnumber (.giga (.inl rfl))
  refine ⟨htrue, fun hgit => ?_⟩
  refine (gitBoolean_agrees_iff _).mp (iff_of_true htrue hgit)
    ⟨_, _, rfl, ⟨_, by decide, hspells⟩, ?_, by decide⟩
  rintro ⟨-, hlt⟩
  exact absurd hlt (by decide)

end Config

end Scap
