import Scap.Url.Confinement

/-!
# The normal form of a URL

`from_input` gives a target two canonical URLs, `https_url` and `ssh_url`.  A repository is in
normal form when both lead back to it.  `normal_form_iff_settled` says exactly when it is: a second
`.git` may be left at the end of the name, since only one is removed, and a `..` may have come out
of what was removed around it, which the canonical URLs are then rejected for.
-/

namespace Scap

/-! ## URLs in parts -/

/-- A host as it stands in a URL: a bracketed address, or without colons. -/
def IsHost (host : Str) : Prop :=
  '/' ∉ host ∧ '@' ∉ host ∧
    (':' ∈ host ∨ host.head? = some '[' →
      ∃ address, host = '[' :: (address ++ [']']) ∧ ']' ∉ address)

/-- A user as it stands in a URL, without a password. -/
def IsUser (user : Str) : Prop := '/' ∉ user ∧ ':' ∉ user

/-- A user and the `@` after it, in front of a host. -/
def userStart : Option Str → Str
  | some user => user ++ ['@']
  | none => []

/-- The last `@` ends the user. -/
lemma splitUser_userStart {user : Option Str} {host : Str} (h : '@' ∉ host) :
    splitUser (userStart user ++ host) = (user, host) := by
  unfold splitUser
  cases user with
  | none => rw [userStart, List.nil_append, splitLast_of_not_mem h]
  | some u => rw [userStart, List.append_assoc, List.singleton_append, splitLast_append h]

/-- The text of a URL. -/
def urlText (scheme : Str) (user : Option Str) (host path : Str) : Str :=
  scheme ++ "://".toList ++ userStart user ++ host ++ path

/-- `gix_url::parse` splits a value, if it is a URL, into its parts verbatim. -/
structure SplitsVerbatim (parse : Str → Except Str ParsedUrl) (value : Str) : Prop where
  https : ∀ user host path, value = urlText "https".toList user host ('/' :: path) →
    (∀ u ∈ user, IsUser u) → host ≠ [] → IsHost host →
    parse value = .ok ⟨.https, user, some host, '/' :: path⟩
  ssh : ∀ user host path, value = urlText "ssh".toList user host ('/' :: path) →
    (∀ u ∈ user, IsUser u) → host ≠ [] → IsHost host →
    parse value = .ok ⟨.ssh, user, some host, '/' :: path⟩
  host : ∀ parsed, parse value = .ok parsed → ∀ host ∈ parsed.host, IsHost host
  user : ∀ parsed, parse value = .ok parsed → ∀ user ∈ parsed.user, IsUser user

/-- A host in lower case is a host. -/
lemma IsHost.toAsciiLowercase {host : Str} (h : IsHost host) : IsHost (toAsciiLowercase host) := by
  have hmem : ∀ {c : Char}, c.isLower = false → c ∈ Scap.toAsciiLowercase host → c ∈ host := by
    intro c hc hmem
    obtain ⟨d, hd, hlower⟩ := List.mem_map.mp hmem
    exact eq_of_toLower_eq hc hlower ▸ hd
  refine ⟨fun hslash => h.1 (hmem (by decide) hslash), fun hat => h.2.1 (hmem (by decide) hat), ?_⟩
  intro hbracketed
  obtain ⟨address, rfl, haddress⟩ : ∃ address, host = '[' :: (address ++ [']']) ∧
      ']' ∉ address := by
    rcases hbracketed with hcolon | hhead
    · exact h.2.2 (.inl (hmem (by decide) hcolon))
    · refine h.2.2 (.inr ?_)
      cases host with
      | nil => cases hhead
      | cons c host => exact congrArg some (eq_of_toLower_eq (by decide) (Option.some.inj hhead))
  refine ⟨Scap.toAsciiLowercase address, by simp [Scap.toAsciiLowercase], fun hbracket => ?_⟩
  obtain ⟨d, hd, hlower⟩ := List.mem_map.mp hbracket
  exact haddress (eq_of_toLower_eq (by decide) hlower ▸ hd)

/-! ## The condition -/

/-- The pieces left of a repository path hold no `..` between backslashes, and the last one has no
`.git`. -/
def SettledPieces (ps : List Str) : Prop :=
  (∀ piece ∈ ps, ¬hasTraversal piece) ∧ ∀ last ∈ ps.getLast?, ¬".git".toList <:+ last

instance (ps : List Str) : Decidable (SettledPieces ps) := inferInstanceAs (Decidable (_ ∧ _))

/-- The targets whose repository is in normal form.

The pieces of the path, once a final `.git` is removed, must be settled.  A user that completes a
bare name must be an owner a URL can show; the host of a URL, and the user before it, must not be
taken for a traversal. -/
def Settled (parse : Str → Except Str ParsedUrl) (input : Str) (scapUser : Option Str)
    (completeUser : Bool) : Prop :=
  if (normalizeToParseable input).kind = .bare then
    SettledPieces (stripPieces ".git".toList (pieces '/' input)) ∧
      (completeUser → (stripPieces ".git".toList (pieces '/' input)).length = 1 →
        ∀ user ∈ scapUser, user ≠ [] ∧ user.head? ≠ some '/' ∧ ¬hasTraversal user)
  else ∀ parsed, parse (normalizeToParseable input).value = .ok parsed →
    SettledPieces (stripPieces ".git".toList (pieces '/' parsed.path)) ∧
      ∀ host ∈ parsed.host, ¬hasTraversal (toAsciiLowercase host) ∧
        ¬hasTraversal (parsed.user.getD "git".toList ++ '@' :: toAsciiLowercase host)

/-! ## Traversal -/

/-- An empty text is no traversal. -/
@[simp] lemma hasTraversal_nil : hasTraversal [] = false := by decide

/-- A separator is where the pieces end that are looked at. -/
lemma hasTraversal_append_sep (a b : Str) :
    hasTraversal (a ++ '/' :: b) = (hasTraversal a || hasTraversal b) := by
  unfold hasTraversal
  rw [List.splitOnP_append_cons _ _ (by decide), List.any_append]

/-- A leading slash makes no traversal. -/
@[simp] lemma hasTraversal_sep_cons (s : Str) : hasTraversal ('/' :: s) = hasTraversal s := by
  simpa using hasTraversal_append_sep [] s

/-- Only the pieces between slashes matter. -/
lemma hasTraversal_iff_pieces (s : Str) :
    hasTraversal s ↔ ∃ piece ∈ pieces '/' s, hasTraversal piece := by
  induction hlength : s.length using Nat.strong_induction_on generalizing s with
  | _ n ih =>
    rcases eq_last_or_append '/' s with hnot | ⟨a, last, rfl, hnot⟩
    · rcases eq_or_ne s [] with rfl | hne
      · simp
      · simp [pieces_of_not_mem hnot hne]
    · have hshort : a.length < n := by
        rw [← hlength, List.length_append, List.length_cons]
        omega
      have hrest : last.length < n := by
        rw [← hlength, List.length_append, List.length_cons]
        omega
      rw [hasTraversal_append_sep, pieces_append_sep, Bool.or_eq_true, ih _ hshort a rfl,
        ih _ hrest last rfl]
      simp only [List.mem_append, or_and_right, exists_or]

/-! ## The path of a canonical URL -/

/-- What starts and ends with something else is trimmed of nothing. -/
lemma trimSep_eq_self {l : Str} (hhead : l.head? ≠ some '/') (hlast : l.getLast? ≠ some '/') :
    trimSep '/' l = l := by
  have hstart : l.dropWhile (fun c => decide (c = '/')) = l := by
    cases l with
    | nil => rfl
    | cons c l => exact List.dropWhile_cons_of_neg (by simpa using hhead)
  unfold trimSep
  rw [hstart]
  rcases List.eq_nil_or_concat' l with rfl | ⟨l, c, rfl⟩
  · rfl
  · exact List.rdropWhile_concat_neg _ _ _ (by simpa using hlast)

/-- A leading slash is trimmed. -/
lemma trimSep_sep_cons (l : Str) : trimSep '/' ('/' :: l) = trimSep '/' l := by
  unfold trimSep
  rw [List.dropWhile_cons_of_pos (by simp)]

/-- An owner and a name have nothing around them to trim. -/
lemma trimSep_owner_name {owner name : Str} (howner : owner ≠ []) (hhead : owner.head? ≠ some '/')
    (hname : name ≠ []) (hslash : '/' ∉ name) :
    trimSep '/' (owner ++ '/' :: name) = owner ++ '/' :: name := by
  apply trimSep_eq_self
  · cases owner with
    | nil => exact absurd rfl howner
    | cons c owner => exact hhead
  · obtain ⟨name, c, rfl⟩ := (List.eq_nil_or_concat' name).resolve_left hname
    intro hlast
    have hlast : (owner ++ '/' :: name ++ [c]).getLast? = some '/' := by simpa using hlast
    rw [List.getLast?_concat] at hlast
    injection hlast with hc
    exact hslash (by simp [hc])

/-- The path of a canonical URL is the owner and the name. -/
lemma trimRepoPath_canonical {owner name : Str} (howner : owner ≠ [])
    (hhead : owner.head? ≠ some '/') (hname : name ≠ []) (hslash : '/' ∉ name)
    (hgit : ¬".git".toList <:+ name) :
    trimRepoPath ('/' :: (owner ++ '/' :: name)) = owner ++ '/' :: name := by
  have htrim := trimSep_owner_name howner hhead hname hslash
  have hstrip : stripSuffix ".git".toList (owner ++ '/' :: name) = none := by
    rw [stripSuffix_append_sep (by decide), stripSuffix_eq_none_iff.mpr hgit, Option.map_none]
  unfold trimRepoPath
  rw [trimSep_sep_cons, htrim]
  simp only [hstrip, Option.getD_none, htrim]

/-- What a URL becomes whose path is an owner and a name. -/
lemma fromParsed_of_path {debug : Str → Str} {original host owner name : Str} {parsed : ParsedUrl}
    (hhost : parsed.host = some host) (hslash : '/' ∉ name)
    (hpath : trimRepoPath parsed.path = owner ++ '/' :: name) :
    fromParsed debug original parsed = .ok {
      host := toAsciiLowercase host
      owner := owner
      name := name
      vcsHint := detectVcs parsed.scheme (toAsciiLowercase host)
      httpsUrl := "https://".toList ++ toAsciiLowercase host ++ '/' :: owner ++ '/' :: name
      sshUrl := "ssh://".toList ++ parsed.user.getD "git".toList ++ '@' :: toAsciiLowercase host ++
        '/' :: owner ++ '/' :: name
      originalInput := original } := by
  have hsplit : (owner ++ '/' :: name).splitOn '/' = owner.splitOn '/' ++ [name] := by
    rw [List.splitOn_append_cons_self, List.splitOn_eq_singleton hslash]
  have hpos : 0 < (owner.splitOn '/').length :=
    List.length_pos_iff_ne_nil.mpr (List.splitOn_ne_nil _ _)
  have howner : "/".toList.intercalate (owner.splitOn '/') = owner := List.intercalate_splitOn '/'
  unfold fromParsed parsedHost
  rw [hhost, hpath]
  simp only [bind, Except.bind, hsplit]
  have hlength : (owner.splitOn '/' ++ [name]).length = (owner.splitOn '/').length + 1 :=
    List.length_append
  rw [if_neg (by simp), if_neg (by omega)]
  simp only [List.getLast?_concat, Option.getD_some, List.dropLast_concat, howner]

/-- A URL's path, trimmed and without `.git`, is the owner and the name. -/
lemma trimRepoPath_of_fromParsed {debug : Str → Str} {original : Str} {parsed : ParsedUrl}
    {repo : Repo} (h : fromParsed debug original parsed = .ok repo) :
    trimRepoPath parsed.path = repo.owner ++ '/' :: repo.name ∧ '/' ∉ repo.name := by
  unfold fromParsed at h
  obtain ⟨host, -, h⟩ := bind_eq_ok.mp h
  generalize trimRepoPath parsed.path = trimmed at h
  simp only at h
  split at h
  · cases h
  · rcases eq_last_or_append '/' trimmed with hnot | ⟨owner, name, rfl, hslash⟩
    · rw [List.splitOn_eq_singleton hnot, if_pos (by simp)] at h
      cases h
    · have howner : "/".toList.intercalate (owner.splitOn '/') = owner :=
        List.intercalate_splitOn '/'
      split at h
      · cases h
      · injection h with h
        subst h
        simp only [List.splitOn_append_cons_self, List.splitOn_eq_singleton hslash,
          List.getLast?_concat, Option.getD_some, List.dropLast_concat, howner, true_and]
        exact hslash

/-- A URL's repository keeps the target, and its canonical URL has the host, the owner and the
name. -/
lemma urls_of_fromParsed {debug : Str → Str} {original : Str} {parsed : ParsedUrl} {repo : Repo}
    (h : fromParsed debug original parsed = .ok repo) :
    repo.originalInput = original ∧
      repo.httpsUrl =
        urlText "https".toList none repo.host ('/' :: (repo.owner ++ '/' :: repo.name)) := by
  unfold fromParsed at h
  obtain ⟨host, -, h⟩ := bind_eq_ok.mp h
  simp only at h
  split at h
  · cases h
  · split at h
    · cases h
    · injection h with h
      subst h
      exact ⟨rfl, by simp [urlText, userStart]⟩

/-- What is trimmed starts with something else. -/
lemma head?_trimSep_ne (l : Str) : (trimSep '/' l).head? ≠ some '/' := by
  unfold trimSep
  have hhead : (l.dropWhile fun c => decide (c = '/')).head? ≠ some '/' := by
    intro h
    have := List.head?_dropWhile_not (fun c => decide (c = '/')) l
    rw [h] at this
    simp at this
  intro h
  obtain ⟨rest, hrest⟩ := List.rdropWhile_prefix (fun c => decide (c = '/'))
    (l := l.dropWhile fun c => decide (c = '/'))
  apply hhead
  rw [← hrest, List.head?_append, h]
  rfl

/-- The owner a URL leads to is not empty and does not start with a slash. -/
lemma owner_of_fromParsed {debug : Str → Str} {original : Str} {parsed : ParsedUrl} {repo : Repo}
    (h : fromParsed debug original parsed = .ok repo) :
    repo.owner ≠ [] ∧ repo.owner.head? ≠ some '/' := by
  obtain ⟨hpath, -⟩ := trimRepoPath_of_fromParsed h
  have hhead : (repo.owner ++ '/' :: repo.name).head? ≠ some '/' := by
    rw [← hpath]
    exact head?_trimSep_ne _
  cases howner : repo.owner with
  | nil => exact absurd (by rw [howner]; rfl) hhead
  | cons c owner =>
    rw [howner] at hhead
    exact ⟨List.cons_ne_nil _ _, hhead⟩

/-! ## Normal forms -/

section

variable (parse : Str → Except Str ParsedUrl) (debug : Str → Str) (aws : AwsEnv)

/-- The name has no `.git`, and both canonical URLs lead back to the repository, whatever the user
settings. -/
structure Repo.NormalForm (repo : Repo) : Prop where
  name : ¬".git".toList <:+ repo.name
  https : ∀ scapUser completeUser, ∃ again,
    fromInput parse debug aws repo.httpsUrl scapUser completeUser = .ok again ∧
      again.host = repo.host ∧ again.owner = repo.owner ∧ again.name = repo.name ∧
      again.httpsUrl = repo.httpsUrl
  ssh : ∀ scapUser completeUser, ∃ again,
    fromInput parse debug aws repo.sshUrl scapUser completeUser = .ok again ∧
      again.host = repo.host ∧ again.owner = repo.owner ∧ again.name = repo.name

end

section

variable {parse : Str → Except Str ParsedUrl} {debug : Str → Str} {aws : AwsEnv}

/-- How a target with a scheme is read. -/
lemma fromInput_of_scheme {value : Str} {parsed : ParsedUrl} (hscheme : hasScheme value)
    (hcodecommit : parseCodecommit value = none) (hparse : parse value = .ok parsed)
    (scapUser : Option Str) (completeUser : Bool) :
    fromInput parse debug aws value scapUser completeUser =
      if hasTraversal value then .error (.pathTraversal value)
      else fromParsed debug value parsed := by
  have hne : value ≠ [] := by
    rintro rfl
    exact absurd hscheme Bool.false_ne_true
  have hnormalized : normalizeToParseable value = ⟨value, .hasScheme⟩ := if_pos hscheme
  unfold fromInput
  rw [if_neg hne, hcodecommit]
  simp only [hnormalized, hparse, if_neg (show ¬NormalizedKind.hasScheme = .bare from nofun)]

/-- Lower case in lower case is the same. -/
lemma toAsciiLowercase_idem (s : Str) :
    toAsciiLowercase (toAsciiLowercase s) = toAsciiLowercase s := by
  have hidem : ∀ c : Char, c.toLower.toLower = c.toLower := by
    intro c
    unfold Char.toLower
    split
    · rename_i hupper
      have hlow : 65 ≤ c.val.toNat := hupper.1
      have hsum : (c.val + ('a'.val - 'A'.val)).toNat = c.val.toNat + 32 := by
        have hhigh : c.val.toNat ≤ 90 := hupper.2
        have hgap : ('a'.val - 'A'.val).toNat = 32 := rfl
        rw [UInt32.toNat_add, hgap]
        exact Nat.mod_eq_of_lt (by omega)
      refine dif_neg fun hagain => ?_
      have hhigh : (c.val + ('a'.val - 'A'.val)).toNat ≤ 90 := hagain.2
      omega
    · rfl
  unfold toAsciiLowercase
  rw [List.map_map]
  exact List.map_congr_left fun c _ => hidem c

/-- A canonical URL is a target with a scheme. -/
lemma hasScheme_urlText {scheme : Str} (h : scheme = "https".toList ∨ scheme = "ssh".toList)
    (user : Option Str) (host path : Str) :
    hasScheme (urlText scheme user host path) = true ∧
      parseCodecommit (urlText scheme user host path) = none := by
  rcases h with rfl | rfl
  · exact ⟨rfl, rfl⟩
  · exact ⟨rfl, rfl⟩

/-- A URL is a traversal exactly if its user and host are, or its path is. -/
lemma hasTraversal_urlText {scheme : Str} (h : scheme = "https".toList ∨ scheme = "ssh".toList)
    (user : Option Str) (host path : Str) :
    hasTraversal (urlText scheme user host ('/' :: path)) =
      (hasTraversal (userStart user ++ host) || hasTraversal path) := by
  have hsplit : urlText scheme user host ('/' :: path) = (scheme ++ [':']) ++ '/' :: '/' ::
      (userStart user ++ host) ++ '/' :: path := by
    simp [urlText]
  have hstart : hasTraversal (scheme ++ [':']) = false := by
    rcases h with rfl | rfl <;> decide
  rw [hsplit, hasTraversal_append_sep, hasTraversal_append_sep, hasTraversal_sep_cons, hstart,
    Bool.false_or]

/-- A canonical URL leads back to its host, owner and name, if nothing in it is taken for a
traversal and the name has no `.git`. -/
lemma fromInput_urlText {scheme host owner name : Str} {user : Option Str} {parsed : ParsedUrl}
    (hkind : scheme = "https".toList ∨ scheme = "ssh".toList)
    (hparse : parse (urlText scheme user host ('/' :: (owner ++ '/' :: name))) = .ok parsed)
    (hhost : parsed.host = some host) (hlower : toAsciiLowercase host = host)
    (hpath : parsed.path = '/' :: (owner ++ '/' :: name))
    (hname : name ≠ []) (hslash : '/' ∉ name) (hgit : ¬".git".toList <:+ name)
    (scapUser : Option Str) (completeUser : Bool) :
    (∃ again, fromInput parse debug aws
          (urlText scheme user host ('/' :: (owner ++ '/' :: name))) scapUser completeUser =
        .ok again ∧ again.host = host ∧ again.owner = owner ∧ again.name = name ∧
        again.httpsUrl = urlText "https".toList none host ('/' :: (owner ++ '/' :: name))) ↔
      owner ≠ [] ∧ owner.head? ≠ some '/' ∧
        hasTraversal (urlText scheme user host ('/' :: (owner ++ '/' :: name))) = false := by
  obtain ⟨hscheme, hcodecommit⟩ :=
    hasScheme_urlText hkind user host ('/' :: (owner ++ '/' :: name))
  rw [fromInput_of_scheme hscheme hcodecommit hparse]
  constructor
  · rintro ⟨again, hagain, -, howner, -⟩
    split at hagain
    · cases hagain
    · rename_i htraversal
      obtain ⟨hne, hhead⟩ := owner_of_fromParsed hagain
      rw [howner] at hne hhead
      exact ⟨hne, hhead, Bool.eq_false_iff.mpr htraversal⟩
  · rintro ⟨hne, hhead, htraversal⟩
    have htrim : trimRepoPath parsed.path = owner ++ '/' :: name := by
      rw [hpath]
      exact trimRepoPath_canonical hne hhead hname hslash hgit
    rw [if_neg (by simp [htraversal]), fromParsed_of_path hhost hslash htrim]
    refine ⟨_, rfl, hlower, rfl, rfl, ?_⟩
    simp [urlText, userStart, hlower]

/-- What the canonical URLs of a repository are. -/
structure Repo.Canonical (repo : Repo) (user : Str) : Prop where
  https : repo.httpsUrl =
    urlText "https".toList none repo.host ('/' :: (repo.owner ++ '/' :: repo.name))
  ssh : repo.sshUrl =
    urlText "ssh".toList (some user) repo.host ('/' :: (repo.owner ++ '/' :: repo.name))
  lower : toAsciiLowercase repo.host = repo.host
  name : repo.name ≠ [] ∧ '/' ∉ repo.name

/-- A repository is in normal form if nothing in its canonical URLs is taken for a traversal, the
owner is there to be found, and the name has no `.git`. -/
lemma Repo.Canonical.normalForm_iff {repo : Repo} {user : Str} (h : repo.Canonical user)
    (hsplitHttps : SplitsVerbatim parse repo.httpsUrl)
    (hsplitSsh : SplitsVerbatim parse repo.sshUrl) (hne : repo.host ≠ []) (hhost : IsHost repo.host)
    (huser : IsUser user) :
    repo.NormalForm parse debug aws ↔
      ¬".git".toList <:+ repo.name ∧ repo.owner ≠ [] ∧ repo.owner.head? ≠ some '/' ∧
        ¬hasTraversal repo.host ∧ ¬hasTraversal (user ++ '@' :: repo.host) ∧
        ¬hasTraversal repo.owner ∧ ¬hasTraversal repo.name := by
  have hhttps := hsplitHttps.https none repo.host (repo.owner ++ '/' :: repo.name) h.https (by simp)
    hne hhost
  have hssh := hsplitSsh.ssh (some user) repo.host (repo.owner ++ '/' :: repo.name) h.ssh (by simpa)
    hne hhost
  rw [h.https] at hhttps
  rw [h.ssh] at hssh
  have htraversal : hasTraversal repo.httpsUrl =
      (hasTraversal repo.host || (hasTraversal repo.owner || hasTraversal repo.name)) := by
    rw [h.https, hasTraversal_urlText (.inl rfl), hasTraversal_append_sep]
    rfl
  have htraversalSsh : hasTraversal repo.sshUrl =
      (hasTraversal (user ++ '@' :: repo.host) ||
        (hasTraversal repo.owner || hasTraversal repo.name)) := by
    rw [h.ssh, hasTraversal_urlText (.inr rfl), hasTraversal_append_sep, userStart,
      List.append_assoc]
    rfl
  constructor
  · intro hnormal
    obtain ⟨again, hagain, hhostEq, hownerEq, hnameEq, hurlEq⟩ := hnormal.https none false
    obtain ⟨againSsh, hagainSsh, -⟩ := hnormal.ssh none false
    rw [h.https] at hagain hurlEq
    obtain ⟨howner, hhead, hfree⟩ := (fromInput_urlText (.inl rfl) hhttps rfl h.lower rfl h.name.1
      h.name.2 hnormal.name none false).mp ⟨again, hagain, hhostEq, hownerEq, hnameEq, hurlEq⟩
    have hfreeSsh : hasTraversal repo.sshUrl = false := by
      obtain ⟨hscheme, hcodecommit⟩ := hasScheme_urlText (.inr rfl) (some user) repo.host
        ('/' :: (repo.owner ++ '/' :: repo.name))
      rw [h.ssh, fromInput_of_scheme hscheme hcodecommit hssh] at hagainSsh
      split at hagainSsh
      · cases hagainSsh
      · rename_i hfree
        rw [h.ssh]
        exact Bool.eq_false_iff.mpr hfree
    rw [← h.https, htraversal] at hfree
    rw [htraversalSsh] at hfreeSsh
    simp only [Bool.or_eq_false_iff] at hfree hfreeSsh
    exact ⟨hnormal.name, howner, hhead, Bool.eq_false_iff.mp hfree.1,
      Bool.eq_false_iff.mp hfreeSsh.1, Bool.eq_false_iff.mp hfree.2.1,
      Bool.eq_false_iff.mp hfree.2.2⟩
  · rintro ⟨hgit, howner, hhead, hhostFree, huserFree, hownerFree, hnameFree⟩
    have hfree : hasTraversal repo.httpsUrl = false := by
      rw [htraversal, Bool.eq_false_iff.mpr hhostFree, Bool.eq_false_iff.mpr hownerFree,
        Bool.eq_false_iff.mpr hnameFree]
      rfl
    have hfreeSsh : hasTraversal repo.sshUrl = false := by
      rw [htraversalSsh, Bool.eq_false_iff.mpr huserFree, Bool.eq_false_iff.mpr hownerFree,
        Bool.eq_false_iff.mpr hnameFree]
      rfl
    rw [h.https] at hfree
    rw [h.ssh] at hfreeSsh
    refine ⟨hgit, fun scapUser completeUser => ?_, fun scapUser completeUser => ?_⟩
    · rw [h.https]
      exact (fromInput_urlText (.inl rfl) hhttps rfl h.lower rfl h.name.1 h.name.2 hgit scapUser
        completeUser).mpr ⟨howner, hhead, hfree⟩
    · rw [h.ssh]
      obtain ⟨again, hagain, hhostEq, hownerEq, hnameEq, -⟩ :=
          (fromInput_urlText (.inr rfl) hssh rfl
        h.lower rfl h.name.1 h.name.2 hgit scapUser completeUser).mpr ⟨howner, hhead, hfreeSsh⟩
      exact ⟨again, hagain, hhostEq, hownerEq, hnameEq⟩

/-- The pieces of an owner and a name are settled if neither is taken for a traversal and the name
has no `.git`. -/
lemma settledPieces_append {owner name : Str} :
    SettledPieces (pieces '/' owner ++ [name]) ↔
      ¬".git".toList <:+ name ∧ ¬hasTraversal owner ∧ ¬hasTraversal name := by
  unfold SettledPieces
  rw [List.forall_mem_append, List.forall_mem_singleton, List.getLast?_concat,
    hasTraversal_iff_pieces owner, not_exists]
  simp only [not_and, Option.mem_def, Option.some.injEq, forall_eq']
  grind

/-- The repository of a URL is in normal form if what is left of its path is settled. -/
lemma normalForm_fromParsed_iff {original : Str} {parsed : ParsedUrl} {repo : Repo}
    {value : Str} (hsplit : SplitsVerbatim parse value) (hparsed : parse value = .ok parsed)
    (h : fromParsed debug original parsed = .ok repo) (hne : repo.host ≠ [])
    (hhttps : SplitsVerbatim parse repo.httpsUrl) (hssh : SplitsVerbatim parse repo.sshUrl) :
    repo.NormalForm parse debug aws ↔
      SettledPieces (stripPieces ".git".toList (pieces '/' parsed.path)) ∧
        ∀ host ∈ parsed.host, ¬hasTraversal (toAsciiLowercase host) ∧
          ¬hasTraversal (parsed.user.getD "git".toList ++ '@' :: toAsciiLowercase host) := by
  obtain ⟨hhost, hpieces, hname, hslash⟩ := fromParsed_spec h
  obtain ⟨host, hgiven, hlower⟩ := hhost.resolve_left hne
  obtain ⟨hpath, -⟩ := trimRepoPath_of_fromParsed h
  obtain ⟨howner, hhead⟩ := owner_of_fromParsed h
  have heq := (fromParsed_of_path hgiven hslash hpath).symm.trans h
  injection heq with heq
  have hcanonical : repo.Canonical (parsed.user.getD "git".toList) := by
    refine ⟨?_, ?_, ?_, hname, hslash⟩
    · rw [← heq]
      simp [urlText, userStart]
    · rw [← heq]
      simp [urlText, userStart]
    · rw [hlower, toAsciiLowercase_idem]
  have hisHost : IsHost repo.host := by
    rw [hlower]
    exact (hsplit.host _ hparsed host hgiven).toAsciiLowercase
  have hisUser : IsUser (parsed.user.getD "git".toList) := by
    cases huser : parsed.user with
    | none => exact ⟨by decide, by decide⟩
    | some user => exact hsplit.user _ hparsed user huser
  rw [hcanonical.normalForm_iff hhttps hssh hne hisHost hisUser, hpieces, settledPieces_append,
    hgiven]
  simp only [Option.mem_def, Option.some.injEq, forall_eq']
  rw [← hlower]
  grind

/-- A bare name is a repository on GitHub. -/
lemma exists_github_of_fromBare {original value : Str} {scapUser : Option Str} {completeUser : Bool}
    {repo : Repo} (h : fromBare original value scapUser completeUser = .ok repo) :
    repo = buildGithubRepo original repo.owner repo.name := by
  unfold fromBare at h
  simp only at h
  split at h
  · cases h
  · cases completeUser with
    | true =>
      cases scapUser with
      | some user =>
        injection h with h
        rw [← h]
        rfl
      | none => cases h
    | false =>
      injection h with h
      rw [← h]
      rfl
  · injection h with h
    rw [← h]
    rfl
  · cases h

/-- The repository of a bare name is in normal form if what is left of the name is settled, and the
user who completes it can be an owner. -/
lemma normalForm_fromBare_iff {original value : Str} {scapUser : Option Str} {completeUser : Bool}
    {repo : Repo} (h : fromBare original value scapUser completeUser = .ok repo)
    (hhttps : SplitsVerbatim parse repo.httpsUrl) (hssh : SplitsVerbatim parse repo.sshUrl) :
    repo.NormalForm parse debug aws ↔
      SettledPieces (stripPieces ".git".toList (pieces '/' value)) ∧
        (completeUser → (stripPieces ".git".toList (pieces '/' value)).length = 1 →
          ∀ user ∈ scapUser, user ≠ [] ∧ user.head? ≠ some '/' ∧ ¬hasTraversal user) := by
  obtain ⟨hhost, hparts⟩ := fromBare_spec h
  have hgithub := exists_github_of_fromBare h
  have hname : repo.name ≠ [] ∧ '/' ∉ repo.name := by
    rcases hparts with ⟨hname, -⟩ | hparts
    · exact piece_spec_of_stripPieces hname _ (by simp)
    · exact piece_spec_of_stripPieces hparts _ (by simp)
  have hcanonical : repo.Canonical "git".toList := by
    refine ⟨?_, ?_, ?_, hname⟩
    · rw [hgithub]
      rfl
    · rw [hgithub]
      rfl
    · rw [hhost]
      decide
  have hne : repo.host ≠ [] := by simp [hhost]
  have hisHost : IsHost repo.host := by
    rw [hhost]
    exact ⟨by decide, by decide, fun hbracketed => absurd hbracketed (by decide)⟩
  rw [hcanonical.normalForm_iff hhttps hssh hne hisHost ⟨by decide, by decide⟩, hhost]
  have hhostFree : ¬hasTraversal "github.com".toList := by decide
  have huserFree : ¬hasTraversal ("git".toList ++ '@' :: "github.com".toList) := by decide
  rw [and_iff_right hhostFree, and_iff_right huserFree]
  clear hhostFree huserFree hne
  rcases hparts with ⟨hsingle, howner⟩ | hparts
  · have hlength : (stripPieces ".git".toList (pieces '/' value)).length = 1 := by
      rw [hsingle]
      rfl
    have hsettled := @settledPieces_append [] repo.name
    rw [pieces_nil, List.nil_append] at hsettled
    rw [hlength, hsingle, hsettled]
    cases completeUser with
    | true =>
      have huser : scapUser = some repo.owner := howner
      rw [huser]
      simp only [hasTraversal_nil, Option.mem_def, Option.some.injEq, forall_eq']
      grind
    | false =>
      have hsame : repo.owner = repo.name := howner
      have hhead : repo.name.head? ≠ some '/' := fun hhead =>
        hname.2 (List.mem_of_mem_head? hhead)
      rw [hsame]
      simp only [hasTraversal_nil]
      grind
  · have hlength : ([repo.owner] ++ [repo.name]).length ≠ 1 := by simp
    obtain ⟨howner, hslash⟩ := piece_spec_of_stripPieces hparts repo.owner (by simp)
    have hhead : repo.owner.head? ≠ some '/' := fun hhead => hslash (List.mem_of_mem_head? hhead)
    have hsettled := @settledPieces_append repo.owner repo.name
    rw [pieces_of_not_mem hslash howner] at hsettled
    rw [hparts, show [repo.owner, repo.name] = [repo.owner] ++ [repo.name] from rfl, hsettled]
    grind

end

/-- **Normal form.** The repository of a target, with a host and no CodeCommit reference, is in
normal form exactly when the target is settled.  Of the parser it is asked that it splits what the
target is parsed as and the two canonical URLs. -/
theorem normal_form_iff_settled (parse : Str → Except Str ParsedUrl) (debug : Str → Str)
    (aws : AwsEnv) (input : Str) (scapUser : Option Str) (completeUser : Bool) (repo : Repo)
    (hparse : SplitsVerbatim parse (normalizeToParseable input).value)
    (hhttps : SplitsVerbatim parse repo.httpsUrl) (hssh : SplitsVerbatim parse repo.sshUrl)
    (hcodecommit : parseCodecommit input = none)
    (h : fromInput parse debug aws input scapUser completeUser = .ok repo)
    (hhost : repo.host ≠ []) :
    repo.NormalForm parse debug aws ↔ Settled parse input scapUser completeUser := by
  unfold Settled
  obtain ⟨-, -, ⟨codecommit, hsome, -⟩ | ⟨-, hkind, h⟩ | ⟨-, hkind, parsed, hparsed, h⟩⟩ :=
    fromInput_cases h
  · cases hcodecommit.symm.trans hsome
  · rw [if_pos hkind]
    exact normalForm_fromBare_iff h hhttps hssh
  · rw [if_neg hkind, normalForm_fromParsed_iff hparse hparsed h hhost hhttps hssh, hparsed]
    simp

/-! ## A verbatim parser -/

/-- A parser that cuts a URL at its delimiters, and drops the password and the port. -/
def splitUrl (value : Str) : Except Str ParsedUrl :=
  match splitFirst ':' value with
  | none => .error "no scheme".toList
  | some (scheme, rest) =>
    match stripStart "//".toList rest with
    | none => .error "no authority".toList
    | some rest =>
      let (userinfo, hostPort) := splitUser (rest.takeWhile (· ≠ '/'))
      .ok {
        scheme :=
          if scheme = "https".toList then .https
          else if scheme = "ssh".toList then .ssh
          else .ext scheme
        user := userinfo.map fun info => info.takeWhile (· ≠ ':')
        host := some <|
          if hostPort.head? = some '[' then '[' :: (hostPort.tail.takeWhile (· ≠ ']') ++ [']'])
          else hostPort.takeWhile (· ≠ ':')
        path := rest.dropWhile (· ≠ '/') }

/-- A text without a character is what comes before it. -/
lemma takeWhile_ne_of_not_mem {c : Char} {s : Str} (h : c ∉ s) (rest : Str) :
    (s ++ c :: rest).takeWhile (· ≠ c) = s ∧ (s ++ c :: rest).dropWhile (· ≠ c) = c :: rest := by
  have hne : ∀ d ∈ s, decide (d ≠ c) = true := fun d hd => decide_eq_true fun heq => h (heq ▸ hd)
  rw [List.takeWhile_append_of_pos hne, List.dropWhile_append_of_pos hne]
  simp

/-- What comes before the first of a character does not have it. -/
lemma not_mem_takeWhile_ne (c : Char) (s : Str) : c ∉ s.takeWhile (· ≠ c) := by
  intro hmem
  simpa using List.mem_takeWhile_imp hmem

/-- The host part of an authority has no `@`. -/
lemma not_mem_splitUser (s : Str) : '@' ∉ (splitUser s).2 := by
  unfold splitUser
  rcases eq_last_or_append '@' s with hnot | ⟨user, host, rfl, hnot⟩
  · rwa [splitLast_of_not_mem hnot]
  · rwa [splitLast_append hnot]

/-- What the parser makes of a URL in parts. -/
lemma splitUrl_urlText {scheme host : Str} {user : Option Str} (hscheme : ':' ∉ scheme)
    (huser : ∀ u ∈ user, IsUser u) (hhost : IsHost host) (path : Str) :
    splitUrl (urlText scheme user host ('/' :: path)) = .ok {
      scheme :=
        if scheme = "https".toList then .https
        else if scheme = "ssh".toList then .ssh
        else .ext scheme
      user := user
      host := some host
      path := '/' :: path } := by
  obtain ⟨hslash, hat, hbracketed⟩ := hhost
  have hauthority : '/' ∉ userStart user ++ host := by
    intro hmem
    rcases List.mem_append.mp hmem with hmem | hmem
    · cases user with
      | none => cases hmem
      | some u =>
        rcases List.mem_append.mp hmem with hmem | hmem
        · exact (huser u rfl).1 hmem
        · exact absurd hmem (by decide)
    · exact hslash hmem
  have hvalue : urlText scheme user host ('/' :: path) = scheme ++ ':' :: ("//".toList ++
      ((userStart user ++ host) ++ '/' :: path)) := by
    simp [urlText]
  have huserEq : (user.map fun info => info.takeWhile (· ≠ ':')) = user := by
    cases user with
    | none => rfl
    | some u =>
      have hne : ∀ c ∈ u, decide (c ≠ ':') = true := fun c hc =>
        decide_eq_true fun heq => (huser u rfl).2 (heq ▸ hc)
      rw [Option.map_some, List.takeWhile_eq_self_iff.mpr hne]
  have hhostEq : (if host.head? = some '[' then
      '[' :: (host.tail.takeWhile (· ≠ ']') ++ [']']) else host.takeWhile (· ≠ ':')) = host := by
    by_cases hhead : host.head? = some '['
    · obtain ⟨address, rfl, haddress⟩ := hbracketed (.inr hhead)
      rw [if_pos hhead, List.tail_cons, (takeWhile_ne_of_not_mem haddress []).1]
    · have hcolon : ':' ∉ host := by
        intro hcolon
        obtain ⟨address, rfl, -⟩ := hbracketed (.inl hcolon)
        exact hhead rfl
      have hne : ∀ c ∈ host, decide (c ≠ ':') = true := fun c hc =>
        decide_eq_true fun heq => hcolon (heq ▸ hc)
      rw [if_neg hhead, List.takeWhile_eq_self_iff.mpr hne]
  obtain ⟨htake, hdrop⟩ := takeWhile_ne_of_not_mem hauthority path
  unfold splitUrl
  rw [hvalue, splitFirst_append hscheme]
  simp only [stripStart_append]
  rw [htake, hdrop, splitUser_userStart hat]
  simp only [huserEq, hhostEq]

/-- The parts of a URL are parts of what stands before its first slash. -/
lemma splitUrl_spec {value : Str} {parsed : ParsedUrl} (h : splitUrl value = .ok parsed) :
    ∃ authority, '/' ∉ authority ∧
      parsed.user = (splitUser authority).1.map (fun info => info.takeWhile (· ≠ ':')) ∧
      parsed.host = some (if (splitUser authority).2.head? = some '[' then
        '[' :: ((splitUser authority).2.tail.takeWhile (· ≠ ']') ++ [']'])
        else (splitUser authority).2.takeWhile (· ≠ ':')) := by
  unfold splitUrl at h
  split at h
  · cases h
  · split at h
    · cases h
    · injection h with h
      subst h
      exact ⟨_, not_mem_takeWhile_ne '/' _, rfl, rfl⟩

/-- The user and the host of a text have no other characters than the text. -/
lemma mem_of_mem_splitUser {c : Char} {s : Str} (h : c ∈ (splitUser s).2 ∨ ∃ user ∈ (splitUser s).1,
    c ∈ user) : c ∈ s := by
  unfold splitUser at h
  rcases eq_last_or_append '@' s with hnot | ⟨user, host, rfl, hnot⟩
  · rw [splitLast_of_not_mem hnot] at h
    simpa using h
  · rw [splitLast_append hnot] at h
    simp only [Option.mem_def, Option.some.injEq, exists_eq_left'] at h
    rcases h with h | h <;> simp [h]

/-- The parser splits every URL verbatim. -/
lemma splitsVerbatim_splitUrl (value : Str) : SplitsVerbatim splitUrl value where
  https user host path hvalue huser _ hhost := by
    rw [hvalue]
    exact splitUrl_urlText (by decide) huser hhost path
  ssh user host path hvalue huser _ hhost := by
    rw [hvalue]
    exact splitUrl_urlText (by decide) huser hhost path
  host parsed hparsed host hhost := by
    obtain ⟨authority, hslash, -, heq⟩ := splitUrl_spec hparsed
    have hslash : '/' ∉ (splitUser authority).2 := fun hmem =>
      hslash (mem_of_mem_splitUser (.inl hmem))
    have hat := not_mem_splitUser authority
    generalize (splitUser authority).2 = hostPort at heq hslash hat
    obtain rfl := Option.some.inj (heq.symm.trans hhost)
    split
    · rename_i hhead
      obtain ⟨address, rfl⟩ := List.head?_eq_some_iff.mp hhead
      have hsub : ∀ c ∈ address.takeWhile (· ≠ ']'), c ∈ '[' :: address := fun c hc =>
        List.mem_cons_of_mem _ ((List.takeWhile_sublist _).mem hc)
      refine ⟨fun hmem => ?_, fun hmem => ?_, fun _ => ⟨_, rfl, not_mem_takeWhile_ne _ _⟩⟩
      · simp only [List.mem_cons, List.mem_append, List.not_mem_nil, or_false] at hmem
        rcases hmem with hmem | hmem | hmem
        · exact absurd hmem (by decide)
        · exact hslash (hsub _ hmem)
        · exact absurd hmem (by decide)
      · simp only [List.mem_cons, List.mem_append, List.not_mem_nil, or_false] at hmem
        rcases hmem with hmem | hmem | hmem
        · exact absurd hmem (by decide)
        · exact hat (hsub _ hmem)
        · exact absurd hmem (by decide)
    · rename_i hhead
      have hsub : ∀ c ∈ hostPort.takeWhile (· ≠ ':'), c ∈ hostPort := fun c hc =>
        (List.takeWhile_sublist _).mem hc
      refine ⟨fun hmem => hslash (hsub _ hmem), fun hmem => hat (hsub _ hmem), ?_⟩
      rintro (hcolon | hbracket)
      · exact absurd hcolon (not_mem_takeWhile_ne _ _)
      · cases hostPort with
        | nil => cases hbracket
        | cons c hostPort =>
          by_cases hc : c = ':'
          · simp [hc] at hbracket
          · rw [List.takeWhile_cons_of_pos (by simpa using hc)] at hbracket
            exact absurd hbracket hhead
  user parsed hparsed user huser := by
    obtain ⟨authority, hslash, heq, -⟩ := splitUrl_spec hparsed
    rw [Option.mem_def, heq] at huser
    obtain ⟨info, hinfo, rfl⟩ := Option.map_eq_some_iff.mp huser
    refine ⟨fun hmem => hslash (mem_of_mem_splitUser (.inr ⟨info, hinfo, ?_⟩)),
      not_mem_takeWhile_ne _ _⟩
    exact (List.takeWhile_sublist _).mem hmem

/-- A target in need of normalisation. -/
def untidyTarget : Str := "me@GitHub.com:/foo/bar.git".toList

/-- The repository of the target. -/
def untidyRepo : Repo where
  host := "github.com".toList
  owner := "foo".toList
  name := "bar".toList
  vcsHint := none
  httpsUrl := "https://github.com/foo/bar".toList
  sshUrl := "ssh://me@github.com/foo/bar".toList
  originalInput := untidyTarget

/-- A repository that was typed untidily is in normal form. -/
theorem normal_form_iff_settled_sample :
    untidyRepo.NormalForm splitUrl id ⟨none, none, none⟩ := by
  refine (normal_form_iff_settled splitUrl id ⟨none, none, none⟩ untidyTarget none false untidyRepo
    (splitsVerbatim_splitUrl _) (splitsVerbatim_splitUrl _) (splitsVerbatim_splitUrl _) (by decide)
    (by decide +kernel) (by decide)).mpr ?_
  have hkind : (normalizeToParseable untidyTarget).kind ≠ .bare := by decide
  have hparse : splitUrl (normalizeToParseable untidyTarget).value =
      .ok ⟨.ssh, some "me".toList, some "GitHub.com".toList, "/foo/bar.git".toList⟩ := by
    decide +kernel
  unfold Settled
  rw [if_neg hkind, hparse]
  rintro parsed hparsed
  injection hparsed with hparsed
  subst hparsed
  decide +kernel

/-- Not every repository is in normal form: the bare name `foo/...git` becomes the repository `..`
of the owner `foo`, whose canonical URL is rejected as a traversal. -/
theorem not_always_normal_form :
    ¬∀ (parse : Str → Except Str ParsedUrl) (debug : Str → Str) (aws : AwsEnv) (input : Str)
      (scapUser : Option Str) (completeUser : Bool) (repo : Repo),
      (∀ value, SplitsVerbatim parse value) → parseCodecommit input = none →
      fromInput parse debug aws input scapUser completeUser = .ok repo → repo.host ≠ [] →
      repo.NormalForm parse debug aws := by
  intro hnormal
  let repo := buildGithubRepo "foo/...git".toList "foo".toList "..".toList
  have h := hnormal splitUrl id ⟨none, none, none⟩ "foo/...git".toList none false repo
    splitsVerbatim_splitUrl (by decide) (by decide +kernel) (by decide)
  obtain ⟨again, hagain, -⟩ := h.https none false
  have herror : fromInput splitUrl id ⟨none, none, none⟩ repo.httpsUrl none false =
      .error (.pathTraversal repo.httpsUrl) := by
    decide +kernel
  cases herror.symm.trans hagain

end Scap
