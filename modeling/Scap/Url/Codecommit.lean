import Scap.Url.Spellings

/-!
# The CodeCommit language

`parse_codecommit` matches a target by hand against the pattern
`^(codecommit):(?::([a-z][a-z0-9-]+):)?//(?:([^]]+)@)?([\w.-]+)$` (`src/url.rs`).  Here the pattern
is a language: `CodecommitRef.spelling` writes the groups back and `CodecommitRef.Matches` says what
each group may hold.  The matcher finds the groups because the region class has no `:`, so the
region ends at the first one, and the name class has no `@`, so the user ends at the last one.
-/

namespace Scap

/-! ## The pattern -/

/-- `[a-z]`. -/
def InLower (c : Char) : Prop := 'a' ≤ c ∧ c ≤ 'z'

/-- `[A-Z]`. -/
def InUpper (c : Char) : Prop := 'A' ≤ c ∧ c ≤ 'Z'

/-- `[0-9]`. -/
def InDigit (c : Char) : Prop := '0' ≤ c ∧ c ≤ '9'

/-- The groups match their classes: the region `[a-z][a-z0-9-]+`, the user `[^]]+` and the name
`[A-Za-z0-9_.-]+`. -/
structure CodecommitRef.Matches (codecommit : CodecommitRef) : Prop where
  region : ∀ region ∈ codecommit.region, ∃ first rest, region = first :: rest ∧ InLower first ∧
    rest ≠ [] ∧ ∀ c ∈ rest, InLower c ∨ InDigit c ∨ c = '-'
  user : ∀ user ∈ codecommit.user, user ≠ [] ∧ ∀ c ∈ user, c ≠ ']'
  name_ne_nil : codecommit.name ≠ []
  name : ∀ c ∈ codecommit.name, InUpper c ∨ InLower c ∨ InDigit c ∨ c = '_' ∨ c = '.' ∨ c = '-'

/-- A region and the colons around it. -/
def regionStart : Option Str → Str
  | some region => ':' :: (region ++ [':'])
  | none => []

/-- The string the groups are the groups of. -/
def CodecommitRef.spelling (codecommit : CodecommitRef) : Str :=
  "codecommit:".toList ++ (regionStart codecommit.region ++
    ("//".toList ++ (userStart codecommit.user ++ codecommit.name)))

/-! ## The classes -/

/-- `isLower` is about the letters `a` to `z`. -/
lemma isLower_iff {c : Char} : c.isLower = true ↔ InLower c := by
  rw [show c.isLower = (decide ('a' ≤ c) && decide (c ≤ 'z')) from rfl]
  simp [InLower]

/-- `isUpper` is about the letters `A` to `Z`. -/
lemma isUpper_iff {c : Char} : c.isUpper = true ↔ InUpper c := by
  rw [show c.isUpper = decide ('A' ≤ c ∧ c ≤ 'Z') from rfl]
  simp [InUpper]

/-- `isDigit` is about the digits `0` to `9`. -/
lemma isDigit_iff {c : Char} : c.isDigit = true ↔ InDigit c := by
  rw [show c.isDigit = (decide ('0' ≤ c) && decide (c ≤ '9')) from rfl]
  simp [InDigit]

/-- The region class, as the matcher tests it. -/
lemma isRegion_iff {region : Str} : isRegion region = true ↔ ∃ first rest, region = first :: rest ∧
    InLower first ∧ rest ≠ [] ∧ ∀ c ∈ rest, InLower c ∨ InDigit c ∨ c = '-' := by
  obtain - | ⟨first, - | ⟨second, rest⟩⟩ := region
  · simp [isRegion]
  · simp [isRegion]
  · simp [isRegion, isLower_iff, isDigit_iff, or_assoc]

/-- The name class, as the matcher tests it. -/
lemma all_name_iff {name : Str} :
    (name.all fun c => isAsciiAlphanumeric c || c = '_' || c = '.' || c = '-') = true ↔
      ∀ c ∈ name, InUpper c ∨ InLower c ∨ InDigit c ∨ c = '_' ∨ c = '.' ∨ c = '-' := by
  simp [isAsciiAlphanumeric_eq, isLower_iff, isUpper_iff, isDigit_iff, or_assoc]

/-- No class but the user's has the characters that end the groups. -/
lemma colon_not_mem_region {region : Str} (h : isRegion region = true) : ':' ∉ region := by
  obtain ⟨first, rest, rfl, hfirst, -, hrest⟩ := isRegion_iff.mp h
  rintro (_ | ⟨_, hmem⟩)
  · exact absurd hfirst (by simp [InLower])
  · rcases hrest _ hmem with hlower | hdigit | hdash
    · exact absurd hlower (by simp [InLower])
    · exact absurd hdigit (by simp [InDigit])
    · exact absurd hdash (by decide)

/-! ## The groups -/

/-- The user and the name are split at the last `@`. -/
lemma splitUser_eq_iff {s host : Str} {user : Option Str} :
    splitUser s = (user, host) ↔ s = userStart user ++ host ∧ '@' ∉ host := by
  constructor
  · intro h
    have hat : '@' ∉ host := by
      have := not_mem_splitUser s
      rwa [h] at this
    refine ⟨?_, hat⟩
    rcases eq_last_or_append '@' s with hnot | ⟨u, host', rfl, hnot⟩
    · rw [splitUser, splitLast_of_not_mem hnot] at h
      cases h
      rfl
    · rw [splitUser, splitLast_append hnot] at h
      cases h
      simp [userStart]
  · rintro ⟨rfl, hat⟩
    exact splitUser_userStart hat

/-- The region group ends at the first colon. -/
lemma codecommitRegion_eq_some_iff {rest after : Str} {region : Option Str}
    (h : after.head? ≠ some ':') : codecommitRegion rest = some (region, after) ↔
      rest = regionStart region ++ after ∧ ∀ r ∈ region, isRegion r = true := by
  cases region with
  | some region =>
    have hregion : (∀ r ∈ some region, isRegion r = true) ↔ isRegion region = true := by simp
    rw [hregion]
    constructor
    · intro h
      unfold codecommitRegion at h
      split at h
      · rename_i withRegion hstrip
        split at h
        · rename_i hsplit
          split at h
          · rename_i hclass
            cases h
            obtain ⟨rfl, -⟩ := splitFirst_eq_some_iff.mp hsplit
            rw [stripStart_eq_some_iff.mp hstrip]
            exact ⟨by simp [regionStart], hclass⟩
          · cases h
        · cases h
      · cases h
    · rintro ⟨rfl, hclass⟩
      have hstrip : stripStart [':'] (regionStart (some region) ++ after) =
          some (region ++ ':' :: after) :=
        stripStart_eq_some_iff.mpr (by simp [regionStart])
      have hsplit := splitFirst_append (colon_not_mem_region hclass) after
      simp only [codecommitRegion, hstrip, hsplit, hclass, if_true]
  | none =>
    have hnone : codecommitRegion rest = some (none, after) ↔
        rest = after ∧ stripStart [':'] rest = none := by
      unfold codecommitRegion
      split
      · rename_i withRegion hstrip
        rw [hstrip]
        simp only [reduceCtorEq, and_false, iff_false]
        split
        · split <;> simp
        · simp
      · rename_i hstrip
        simp [hstrip]
    rw [hnone]
    constructor
    · rintro ⟨rfl, -⟩
      exact ⟨rfl, by simp⟩
    · rintro ⟨hrest, -⟩
      obtain rfl : rest = after := hrest
      refine ⟨rfl, ?_⟩
      cases hstrip : stripStart [':'] rest with
      | none => rfl
      | some tail =>
        -- without a region, what follows starts with a slash and not with a colon
        rw [stripStart_eq_some_iff.mp hstrip] at h
        exact absurd rfl h

/-- The name group starts after the last `@`. -/
lemma codecommitUserName_eq_some_iff {authority name : Str} {user : Option Str} :
    codecommitUserName authority = some (user, name) ↔ authority = userStart user ++ name ∧
      (∀ u ∈ user, u ≠ [] ∧ ∀ c ∈ u, c ≠ ']') ∧ name ≠ [] ∧
        ∀ c ∈ name, InUpper c ∨ InLower c ∨ InDigit c ∨ c = '_' ∨ c = '.' ∨ c = '-' := by
  have huser : ∀ user : Option Str, (user.any fun user => user.isEmpty || user.contains ']') =
      false ↔ ∀ u ∈ user, u ≠ [] ∧ ∀ c ∈ u, c ≠ ']' := by
    rintro (- | u)
    · simp
    · have hbracket : (∀ c ∈ u, c ≠ ']') ↔ ']' ∉ u := List.forall_mem_ne'
      simp [hbracket]
  constructor
  · intro h
    unfold codecommitUserName at h
    generalize hsplit : splitUser authority = groups at h
    obtain ⟨user', name'⟩ := groups
    simp only at h
    split at h
    · cases h
    · rename_i hbad
      split at h
      · cases h
      · rename_i hname
        cases h
        rw [not_or, not_not, all_name_iff] at hname
        exact ⟨(splitUser_eq_iff.mp hsplit).1, (huser user).mp (by simpa using hbad), hname⟩
  · rintro ⟨rfl, hclass, hne, hname⟩
    have hat : '@' ∉ name := by
      intro hmem
      rcases hname _ hmem with h | h | h | h | h | h <;>
        revert h <;> simp [InUpper, InLower, InDigit]
    have hall := all_name_iff.mpr hname
    simp only [codecommitUserName, splitUser_userStart hat, (huser user).mpr hclass, hne, hall,
      Bool.false_eq_true, if_false, not_true, or_self]

/-- **The matcher accepts exactly the pattern, with its groups.** -/
lemma parseCodecommit_eq_some_iff {s : Str} {codecommit : CodecommitRef} :
    parseCodecommit s = some codecommit ↔ codecommit.Matches ∧ s = codecommit.spelling := by
  obtain ⟨region, user, name⟩ := codecommit
  have hhead : ∀ authority : Str, ("//".toList ++ authority).head? ≠ some ':' := by simp
  have hregion : (∀ r ∈ region, isRegion r = true) ↔ ∀ r ∈ region, ∃ first rest,
      r = first :: rest ∧ InLower first ∧ rest ≠ [] ∧
        ∀ c ∈ rest, InLower c ∨ InDigit c ∨ c = '-' := by
    simp only [isRegion_iff]
  simp only [parseCodecommit, Option.bind_eq_bind, Option.bind_eq_some_iff, Prod.exists,
    stripStart_eq_some_iff, Option.some.injEq, CodecommitRef.mk.injEq]
  constructor
  · rintro ⟨rest, rfl, region', after, hafter, authority, rfl, user', name', hname, rfl, rfl, rfl⟩
    obtain ⟨rfl, hr⟩ := (codecommitRegion_eq_some_iff (hhead authority)).mp hafter
    obtain ⟨rfl, hu, hne, hn⟩ := codecommitUserName_eq_some_iff.mp hname
    exact ⟨⟨hregion.mp hr, hu, hne, hn⟩, rfl⟩
  · rintro ⟨⟨hr, hu, hne, hn⟩, rfl⟩
    exact ⟨_, rfl, region, _, (codecommitRegion_eq_some_iff (hhead _)).mpr ⟨rfl, hregion.mpr hr⟩, _,
      rfl, user, name, codecommitUserName_eq_some_iff.mpr ⟨rfl, hu, hne, hn⟩, rfl, rfl, rfl⟩

/-! ## The route -/

/-- What comes of the CodeCommit route: a missing region, or a repository without an owner that git
clones. -/
lemma finalizeCodecommit_cases (aws : AwsEnv) (original : Str) (codecommit : CodecommitRef) :
    finalizeCodecommit aws original codecommit = .error .missingCodecommitRegion ∨
      ∃ repo, finalizeCodecommit aws original codecommit = .ok repo ∧ repo.owner = [] ∧
        repo.vcsHint = some "git".toList := by
  cases hhost : codecommitHost aws codecommit with
  | ok host => exact .inr ⟨_, by rw [finalizeCodecommit, hhost]; rfl, rfl, rfl⟩
  | error e =>
    have he : e = .missingCodecommitRegion := by
      unfold codecommitHost resolveCodecommitRegion at hhost
      split at hhost
      · cases hhost
      · split at hhost
        · cases hhost
        · split at hhost
          · cases hhost
          · split at hhost
            · cases hhost
            · injection hhost with hhost
              exact hhost.symm
    subst he
    exact .inl (by rw [finalizeCodecommit, hhost]; rfl)

/-- A result that the CodeCommit route cannot have. -/
def OrdinaryResult : Except UrlError Repo → Prop
  | .ok repo => repo.owner ≠ [] ∨ repo.vcsHint = none
  | .error e => e ≠ .missingCodecommitRegion

/-- An ordinary result is not that of a CodeCommit reference. -/
lemma OrdinaryResult.ne {result : Except UrlError Repo} (h : OrdinaryResult result) (aws : AwsEnv)
    (original : Str) (codecommit : CodecommitRef) :
    result ≠ finalizeCodecommit aws original codecommit := by
  rintro rfl
  rcases finalizeCodecommit_cases aws original codecommit with heq | ⟨repo, heq, howner, hhint⟩
  · rw [heq] at h
    exact h rfl
  · rw [heq] at h
    rcases h with h | h
    · exact h howner
    · rw [hhint] at h
      cases h

/-- A bare name has an ordinary result. -/
lemma ordinaryResult_fromBare (original value : Str) (scapUser : Option Str)
    (completeUser : Bool) : OrdinaryResult (fromBare original value scapUser completeUser) := by
  unfold fromBare
  simp only
  split
  · simp [OrdinaryResult]
  · split
    · split
      · exact .inr rfl
      · simp [OrdinaryResult]
    · exact .inr rfl
  · exact .inr rfl
  · simp [OrdinaryResult]

/-- A parsed URL has an ordinary result. -/
lemma ordinaryResult_fromParsed (debug : Str → Str) (original : Str) (parsed : ParsedUrl) :
    OrdinaryResult (fromParsed debug original parsed) := by
  cases hresult : fromParsed debug original parsed with
  | ok repo => exact .inl (owner_of_fromParsed hresult).1
  | error e =>
    unfold fromParsed at hresult
    cases hhost : parsedHost original parsed with
    | error e' =>
      rw [hhost] at hresult
      obtain rfl : e' = e := Except.error.inj hresult
      unfold parsedHost at hhost
      split at hhost
      · cases hhost
      · split at hhost
        · cases hhost
        · cases hhost
          simp [OrdinaryResult]
    | ok host =>
      rw [hhost] at hresult
      change (if trimRepoPath parsed.path = [] then Except.error (UrlError.missingPath original)
        else _) = _ at hresult
      split at hresult
      · cases hresult
        simp [OrdinaryResult]
      · split at hresult
        · cases hresult
          simp [OrdinaryResult]
        · cases hresult

section

variable {parse : Str → Except Str ParsedUrl} {debug : Str → Str} {aws : AwsEnv}

/-- Without a traversal, what matches the pattern takes the CodeCommit route. -/
lemma fromInput_of_parseCodecommit {s : Str} {codecommit : CodecommitRef}
    (hfree : hasTraversal s = false) (h : parseCodecommit s = some codecommit)
    (scapUser : Option Str) (completeUser : Bool) :
    fromInput parse debug aws s scapUser completeUser = finalizeCodecommit aws s codecommit := by
  have hne : s ≠ [] := by
    rintro rfl
    exact absurd h (by simp [parseCodecommit, stripStart])
  unfold fromInput
  rw [if_neg hne, hfree, h]
  rfl

/-- What does not match takes another route. -/
lemma ordinaryResult_fromInput {s : Str} (h : parseCodecommit s = none) (scapUser : Option Str)
    (completeUser : Bool) :
    OrdinaryResult (fromInput parse debug aws s scapUser completeUser) := by
  unfold fromInput
  rw [h]
  split
  · simp [OrdinaryResult]
  · split
    · simp [OrdinaryResult]
    · simp only
      split
      · exact ordinaryResult_fromBare ..
      · split
        · simp [OrdinaryResult]
        · exact ordinaryResult_fromParsed ..

end

/-- **The CodeCommit language**: `parse_codecommit` accepts exactly the spellings of groups that
match, and returns these groups; a spelling has no other groups; and without a traversal,
`from_input` takes the CodeCommit route exactly on these spellings, with their groups. -/
theorem codecommit_language :
    (∀ (s : Str) (codecommit : CodecommitRef),
      parseCodecommit s = some codecommit ↔ codecommit.Matches ∧ s = codecommit.spelling) ∧
    (∀ a b : CodecommitRef, a.Matches → b.Matches → a.spelling = b.spelling → a = b) ∧
    ∀ (parse : Str → Except Str ParsedUrl) (debug : Str → Str) (aws : AwsEnv) (s : Str)
      (scapUser : Option Str) (completeUser : Bool), hasTraversal s = false →
      ((∃ codecommit, fromInput parse debug aws s scapUser completeUser =
          finalizeCodecommit aws s codecommit) ↔
        ∃ codecommit : CodecommitRef, codecommit.Matches ∧ s = codecommit.spelling) ∧
      ∀ codecommit : CodecommitRef, codecommit.Matches → s = codecommit.spelling →
        fromInput parse debug aws s scapUser completeUser =
          finalizeCodecommit aws s codecommit := by
  refine ⟨fun s codecommit => parseCodecommit_eq_some_iff, fun a b ha hb heq => ?_,
    fun parse debug aws s scapUser completeUser hfree => ⟨⟨?_, ?_⟩, fun codecommit h hs => ?_⟩⟩
  · have hgroups := (parseCodecommit_eq_some_iff.mpr ⟨ha, rfl⟩).symm.trans
      (parseCodecommit_eq_some_iff.mpr ⟨hb, heq⟩)
    exact Option.some.inj hgroups
  · rintro ⟨codecommit, hroute⟩
    cases hparse : parseCodecommit s with
    | none => exact absurd hroute ((ordinaryResult_fromInput hparse ..).ne aws s codecommit)
    | some groups => exact ⟨groups, parseCodecommit_eq_some_iff.mp hparse⟩
  · rintro ⟨codecommit, h⟩
    exact ⟨codecommit, fromInput_of_parseCodecommit hfree (parseCodecommit_eq_some_iff.mpr h) ..⟩
  · exact fromInput_of_parseCodecommit hfree (parseCodecommit_eq_some_iff.mpr ⟨h, hs⟩) ..

/-- A user with slashes and an `@` of its own. -/
theorem codecommit_language_sample :
    parseCodecommit "codecommit::us-east-1://a/b@c@d".toList =
        some ⟨some "us-east-1".toList, some "a/b@c".toList, "d".toList⟩ ∧
      ∀ parse debug aws scapUser completeUser,
        fromInput parse debug aws "codecommit::us-east-1://a/b@c@d".toList scapUser completeUser =
          finalizeCodecommit aws "codecommit::us-east-1://a/b@c@d".toList
            ⟨some "us-east-1".toList, some "a/b@c".toList, "d".toList⟩ := by
  have hparse : parseCodecommit "codecommit::us-east-1://a/b@c@d".toList =
      some ⟨some "us-east-1".toList, some "a/b@c".toList, "d".toList⟩ := by decide
  obtain ⟨hmatches, hspelling⟩ := (codecommit_language.1 _ _).mp hparse
  refine ⟨hparse, fun parse debug aws scapUser completeUser => ?_⟩
  exact (codecommit_language.2.2 parse debug aws _ scapUser completeUser (by decide)).2 _ hmatches
    hspelling

end Scap
