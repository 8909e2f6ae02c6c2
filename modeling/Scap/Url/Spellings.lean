import Scap.Url.NormalForm

/-!
# Spellings of a repository

A repository can be spelled as a URL, as the argument of `scp`, by its host, and on GitHub by its
owner and name alone.  Four recognisers look at a target one after the other, and each passes over
the spellings the later ones are for, so that all spellings lead to one repository
(`spellings_agree`).
-/

namespace Scap

/-- An owner segment or a name that every spelling can show. -/
structure IsSegment (segment : Str) : Prop where
  nonempty : segment ≠ []
  ne_dot : segment ≠ ".".toList
  ne_dotDot : segment ≠ "..".toList
  plain : ∀ c ∈ segment, c ∉ ['/', '\\', ':', '@', '?', '#', '%'] ∧ ¬isWhitespace c

/-- The name of a host. -/
structure IsHostName (host : Str) : Prop where
  chars : ∀ c ∈ host, c.isLower ∨ c.isDigit ∨ c = '-' ∨ c = '.'
  dot : '.' ∈ host
  start : host.head? ≠ some '.'

/-- The spellings of a repository that show its host. -/
def spellings (host owner name : Str) : List Str :=
  [ "https://".toList ++ host ++ '/' :: (owner ++ '/' :: name),
    "https://".toList ++ host ++ '/' :: (owner ++ '/' :: (name ++ ".git".toList)),
    "https://".toList ++ host ++ '/' :: (owner ++ '/' :: (name ++ ['/'])),
    "ssh://git@".toList ++ host ++ '/' :: (owner ++ '/' :: (name ++ ".git".toList)),
    "git@".toList ++ host ++ ':' :: (owner ++ '/' :: (name ++ ".git".toList)),
    "git@".toList ++ host ++ ':' :: '/' :: (owner ++ '/' :: name),
    host ++ ':' :: (owner ++ '/' :: name),
    host ++ '/' :: (owner ++ '/' :: name) ]

/-! ## Recognisers -/

/-- The search for a scheme goes on to the first colon. -/
lemma hasScheme_append {a rest : Str} (ha : ':' ∉ a) (h : hasScheme rest = false) :
    hasScheme (a ++ rest) = false := by
  induction a with
  | nil => exact h
  | cons d a ih =>
    obtain ⟨hd, ha⟩ : d ≠ ':' ∧ ':' ∉ a := by
      rw [List.mem_cons, not_or] at ha
      exact ⟨Ne.symm ha.1, ha.2⟩
    simp only [List.cons_append, hasScheme, if_neg hd, ih ha]
    split <;> rfl

/-- A character that no scheme holds ends the search for one. -/
lemma hasScheme_append_eq_false {a : Str} (ha : ':' ∉ a) {c : Char} (hcolon : c ≠ ':')
    (hc : (isAsciiAlphanumeric c || c = '+' || c = '-' || c = '.') = false) (rest : Str) :
    hasScheme (a ++ c :: rest) = false := by
  refine hasScheme_append ha ?_
  simp only [hasScheme, if_neg hcolon, hc, Bool.false_eq_true, if_false]

/-- A scheme ends in `://`. -/
lemma hasScheme_append_colon {a rest : Str} (ha : ':' ∉ a) (h : ¬"//".toList <+: rest) :
    hasScheme (a ++ ':' :: rest) = false := by
  refine hasScheme_append ha ?_
  simpa [hasScheme] using h

/-- Without a colon, nothing is like the argument of `scp`. -/
lemma parseScpLike_of_not_mem {s : Str} (h : ':' ∉ s) : parseScpLike s = none := by
  unfold parseScpLike
  rw [splitFirst_of_not_mem h]
  rfl

/-- A user and a host before the first colon. -/
lemma parseScpLike_append {user : Option Str} {host path : Str} (hat : '@' ∉ host)
    (hcolon : ':' ∉ userStart user ++ host) (hslash : '/' ∉ userStart user ++ host)
    (hhost : host ≠ []) (hpath : path ≠ []) :
    parseScpLike (userStart user ++ host ++ ':' :: path) = some (user, host, path) := by
  have hsplit : splitUser (userStart user ++ host) = (user, host) := splitUser_userStart hat
  have hleft : userStart user ++ host ≠ [] := by simp [hhost]
  unfold parseScpLike
  rw [splitFirst_append hcolon]
  simp only [bind, Option.bind, hsplit]
  rw [if_neg (by simp [hhost, hpath]), if_neg hslash, if_neg hhost]

/-- A target with a colon in it is no CodeCommit reference if something else stands before it. -/
lemma parseCodecommit_append_colon {a : Str} (ha : ':' ∉ a) (hne : a ≠ "codecommit".toList)
    (rest : Str) : parseCodecommit (a ++ ':' :: rest) = none := by
  have hstrip : stripStart "codecommit:".toList (a ++ ':' :: rest) = none := by
    unfold stripStart
    refine if_neg ?_
    rintro ⟨after, hafter⟩
    have hcodecommit := splitFirst_append (show ':' ∉ "codecommit".toList by decide) after
    have hsplit := splitFirst_append ha rest
    rw [← hafter] at hsplit
    have := hcodecommit.symm.trans hsplit
    injection this with this
    injection this with heq
    exact hne heq.symm
  unfold parseCodecommit
  rw [hstrip]
  rfl

/-- A text without a colon is no CodeCommit reference. -/
lemma parseCodecommit_of_not_mem {s : Str} (h : ':' ∉ s) : parseCodecommit s = none := by
  have hstrip : stripStart "codecommit:".toList s = none := by
    unfold stripStart
    refine if_neg ?_
    rintro ⟨after, rfl⟩
    exact h (List.mem_append_left _ (by decide))
  unfold parseCodecommit
  rw [hstrip]
  rfl

/-! ## Traversal -/

/-- A name without separators is no traversal. -/
lemma hasTraversal_of_plain {s : Str} (hsep : ∀ c ∈ s, c ≠ '/' ∧ c ≠ '\\') (hne : s ≠ "..".toList) :
    hasTraversal s = false := by
  have hnot : ∀ c ∈ s, (decide (c = '/') || decide (c = '\\')) = false := by
    intro c hc
    simp [hsep c hc]
  unfold hasTraversal
  rw [show s.splitOnP (fun c => c = '/' || c = '\\') = [s] from List.splitOnP_eq_singleton hnot]
  simpa using hne

/-- In front of a target, something without separators that is not only dots makes no traversal. -/
lemma hasTraversal_append {a s : Str} (hsep : ∀ c ∈ a, c ≠ '/' ∧ c ≠ '\\')
    (hdot : ∃ c ∈ a, c ≠ '.') (h : hasTraversal s = false) : hasTraversal (a ++ s) = false := by
  have hsplit : (a ++ s).splitOnP (fun c => c = '/' || c = '\\') =
      (s.splitOnP fun c => c = '/' || c = '\\').modifyHead (a ++ ·) := by
    clear hdot
    induction a with
    | nil =>
      rw [List.nil_append]
      generalize s.splitOnP (fun c => decide (c = '/') || decide (c = '\\')) = parts
      cases parts <;> rfl
    | cons c a ih =>
      obtain ⟨hc, hsep⟩ := List.forall_mem_cons.mp hsep
      rw [List.cons_append, List.splitOnP_cons_eq_if_modifyHead, if_neg (by simp [hc]), ih hsep]
      cases s.splitOnP (fun c => decide (c = '/') || decide (c = '\\')) <;> rfl
  unfold hasTraversal at h ⊢
  rw [hsplit]
  cases hs : s.splitOnP (fun c => decide (c = '/') || decide (c = '\\')) with
  | nil => exact absurd hs (List.splitOnP_ne_nil _ _)
  | cons first rest =>
    rw [hs, List.any_cons, Bool.or_eq_false_iff] at h
    rw [List.modifyHead_cons, List.any_cons, h.2, Bool.or_false, decide_eq_false_iff_not]
    intro heq
    obtain ⟨c, hc, hne⟩ := hdot
    have hmem : c ∈ "..".toList := by
      rw [← heq]
      exact List.mem_append_left _ hc
    have hall : ∀ d ∈ "..".toList, d = '.' := forall_mem_of_all (by decide)
    exact hne (hall c hmem)

/-! ## Segments and hosts -/

namespace IsSegment

variable {segment : Str} (h : IsSegment segment)
include h

/-- A segment has none of the characters that separate. -/
lemma not_mem {c : Char} (hc : c ∈ ['/', '\\', ':', '@', '?', '#', '%']) : c ∉ segment :=
  fun hmem => (h.plain c hmem).1 hc

/-- A segment does not begin with a slash. -/
lemma head?_ne : segment.head? ≠ some '/' := fun hhead =>
  h.not_mem (by decide) (List.mem_of_mem_head? hhead)

/-- A segment has no slash and no backslash. -/
lemma noSeparator : ∀ c ∈ segment, c ≠ '/' ∧ c ≠ '\\' := by
  refine fun c hc => ⟨?_, ?_⟩ <;> rintro rfl
  · exact h.not_mem (by decide) hc
  · exact h.not_mem (by decide) hc

/-- A segment is no traversal. -/
lemma hasTraversal_eq : hasTraversal segment = false :=
  hasTraversal_of_plain h.noSeparator h.ne_dotDot

/-- A segment with `.git` is no traversal. -/
lemma hasTraversal_append_git : hasTraversal (segment ++ ".git".toList) = false := by
  apply hasTraversal_of_plain
  · intro c hc
    rcases List.mem_append.mp hc with hc | hc
    · exact h.noSeparator c hc
    · have hgit : ∀ c ∈ ".git".toList, c ≠ '/' ∧ c ≠ '\\' := forall_mem_of_all (by decide)
      exact hgit c hc
  · intro heq
    have := congrArg List.length heq
    simp at this

end IsSegment

/-- What the spellings rely on of the owner segments together. -/
structure IsOwner (owner : Str) : Prop where
  nonempty : owner ≠ []
  start : owner.head? ≠ some '/'
  plain : ∀ c ∈ [':', '@'], c ∉ owner
  free : hasTraversal owner = false

/-- A character that neither the separator nor a segment has is not in the joined text. -/
lemma not_mem_intercalate {c : Char} {sep : Str} {segments : List Str} (hsep : c ∉ sep)
    (h : ∀ segment ∈ segments, c ∉ segment) : c ∉ sep.intercalate segments := by
  induction segments with
  | nil => simp
  | cons first rest ih =>
    obtain ⟨hfirst, hrest⟩ := List.forall_mem_cons.mp h
    rcases eq_or_ne rest [] with rfl | hne
    · rwa [List.intercalate_singleton]
    · rw [List.intercalate_cons_of_ne_nil hne, List.mem_append, List.mem_append]
      simp only [not_or]
      exact ⟨⟨hfirst, hsep⟩, ih hrest⟩

/-- Joined segments are an owner. -/
lemma isOwner_intercalate {owners : List Str} (hne : owners ≠ [])
    (h : ∀ segment ∈ owners, IsSegment segment) : IsOwner ("/".toList.intercalate owners) := by
  obtain ⟨first, rest, rfl⟩ := List.exists_cons_of_ne_nil hne
  have hfirst := h first (by simp)
  have hstart : ∃ tail, "/".toList.intercalate (first :: rest) = first ++ tail := by
    cases rest with
    | nil => exact ⟨[], by simp⟩
    | cons second rest => exact ⟨_, by rw [List.intercalate_cons_cons, List.append_assoc]⟩
  obtain ⟨tail, htail⟩ := hstart
  have hnonempty : first ++ tail ≠ [] := by simp [hfirst.nonempty]
  have hsplit : ("/".toList.intercalate (first :: rest)).splitOn '/' = first :: rest :=
    List.splitOn_intercalate '/' (fun segment hsegment => (h segment hsegment).not_mem (by decide))
      hne
  refine ⟨?_, ?_, ?_, ?_⟩
  · rwa [htail]
  · rw [htail]
    have hhead := hfirst.head?_ne
    cases first with
    | nil => exact absurd rfl hfirst.nonempty
    | cons c first => exact hhead
  · intro c hc
    have hsep : c ∉ "/".toList ∧ c ∈ ['/', '\\', ':', '@', '?', '#', '%'] := by
      revert c
      exact forall_mem_of_all (by decide)
    exact not_mem_intercalate hsep.1 fun segment hsegment => (h segment hsegment).not_mem hsep.2
  · rw [Bool.eq_false_iff]
    intro htraversal
    obtain ⟨piece, hpiece, htraversal⟩ := (hasTraversal_iff_pieces _).mp htraversal
    have hmem : piece ∈ first :: rest := by
      rw [← hsplit]
      exact (List.mem_filter.mp hpiece).1
    rw [(h piece hmem).hasTraversal_eq] at htraversal
    cases htraversal

namespace IsOwner

variable {owner : Str} (h : IsOwner owner)
include h

/-- An owner begins with no slash that could be trimmed. -/
lemma dropWhile_slash (rest : Str) : (owner ++ rest).dropWhile (· = '/') = owner ++ rest := by
  obtain ⟨c, tail, heq⟩ := List.exists_cons_of_ne_nil h.nonempty
  have hc : c ≠ '/' := by
    rintro rfl
    exact h.start (by rw [heq]; rfl)
  rw [heq, List.cons_append, List.dropWhile_cons_of_neg (by simpa using hc)]

/-- An owner does not begin with two slashes. -/
lemma not_slashes (rest : Str) : ¬"//".toList <+: owner ++ rest := by
  rintro ⟨after, hafter⟩
  obtain ⟨c, tail, heq⟩ := List.exists_cons_of_ne_nil h.nonempty
  rw [heq] at hafter
  apply h.start
  rw [heq, ← (List.cons.inj hafter).1]
  rfl

end IsOwner

/-- A path whose owner and name have no colon has none. -/
lemma colon_not_mem_path {owner name : Str} (howner : ':' ∉ owner) (hname : ':' ∉ name) :
    ':' ∉ owner ++ '/' :: name := by
  rw [List.mem_append, List.mem_cons]
  rintro (hmem | hmem | hmem)
  · exact howner hmem
  · exact absurd hmem (by decide)
  · exact hname hmem

/-- Nothing traverses upwards in a path whose two parts do not. -/
lemma hasTraversal_path {a b : Str} (ha : hasTraversal a = false) (hb : hasTraversal b = false) :
    hasTraversal (a ++ '/' :: b) = false := by
  rw [hasTraversal_append_sep, ha, hb]
  rfl

/-- A host as it is typed, in any case. -/
structure IsTyped (typed : Str) : Prop where
  chars : ∀ c ∈ typed, c = '.' ∨ isAsciiAlphanumeric c ∨ c = '-'
  dot : '.' ∈ typed
  start : typed.head? ≠ some '.'

/-- A host that is typed in any letter case is a typed host. -/
lemma IsHostName.isTyped {host typed : Str} (h : IsHostName host)
    (htyped : toAsciiLowercase typed = host) : IsTyped typed where
  chars c hc := by
    have hlower : c.toLower ∈ host := by
      rw [← htyped]
      exact List.mem_map_of_mem hc
    by_cases hupper : c.isUpper
    · refine .inr (.inl ?_)
      simp [isAsciiAlphanumeric_eq, hupper]
    · have hsame : c.toLower = c := dif_neg fun hrange => hupper (decide_eq_true hrange)
      rw [hsame] at hlower
      rcases h.chars c hlower with hc | hc | hc | hc
      · exact .inr (.inl (by simp [isAsciiAlphanumeric_eq, hc]))
      · exact .inr (.inl (by simp [isAsciiAlphanumeric_eq, hc]))
      · exact .inr (.inr hc)
      · exact .inl hc
  dot := by
    have hdot := h.dot
    rw [← htyped] at hdot
    obtain ⟨c, hc, hlower⟩ := List.mem_map.mp hdot
    exact eq_of_toLower_eq (by decide) hlower ▸ hc
  start hhead := by
    apply h.start
    rw [← htyped, toAsciiLowercase, List.head?_map, hhead]
    rfl

namespace IsTyped

variable {typed : Str} (h : IsTyped typed)
include h

/-- A typed host has only alphanumerics, dots and dashes. -/
lemma not_mem {c : Char} (hdot : c ≠ '.') (hdash : c ≠ '-') (hc : isAsciiAlphanumeric c = false) :
    c ∉ typed := by
  intro hmem
  rcases h.chars c hmem with heq | halpha | heq
  · exact hdot heq
  · exact absurd (hc.symm.trans halpha) Bool.false_ne_true
  · exact hdash heq

/-- A typed host has no colon. -/
lemma noColon : ':' ∉ typed := h.not_mem (by decide) (by decide) (by decide)

/-- A typed host has no slash. -/
lemma noSlash : '/' ∉ typed := h.not_mem (by decide) (by decide) (by decide)

/-- A typed host has no `@`. -/
lemma noAt : '@' ∉ typed := h.not_mem (by decide) (by decide) (by decide)

/-- A typed host is not empty. -/
lemma nonempty : typed ≠ [] := by
  rintro rfl
  exact absurd h.dot List.not_mem_nil

/-- A typed host has no slash and no backslash. -/
lemma noSeparator : ∀ c ∈ typed, c ≠ '/' ∧ c ≠ '\\' := by
  refine fun c hc => ⟨?_, ?_⟩ <;> rintro rfl
  · exact h.noSlash hc
  · exact h.not_mem (by decide) (by decide) (by decide) hc

/-- A typed host is a host. -/
lemma isHost : IsHost typed := by
  refine ⟨h.noSlash, h.noAt, ?_⟩
  rintro (hcolon | hbracket)
  · exact absurd hcolon h.noColon
  · exact absurd (List.mem_of_mem_head? hbracket) (h.not_mem (by decide) (by decide) (by decide))

/-- A typed host is no traversal. -/
lemma hasTraversal_eq : hasTraversal typed = false := by
  refine hasTraversal_of_plain h.noSeparator ?_
  rintro rfl
  exact h.start rfl

/-- The host is recognised for what it is. -/
lemma looksLikeAuthority_eq : looksLikeAuthority typed = true := by
  have htake : typed.takeWhile (fun c => decide (c ≠ ':')) = typed := by
    rw [List.takeWhile_eq_self_iff]
    exact fun c hc => decide_eq_true fun heq => h.noColon (heq ▸ hc)
  unfold looksLikeAuthority
  simp only [htake, Bool.and_eq_true, bne_iff_ne, List.all_eq_true, Bool.or_eq_true,
    decide_eq_true_eq]
  refine ⟨⟨List.contains_iff_mem.mpr h.dot, h.start⟩, fun c hc => ?_⟩
  rcases h.chars c hc with hc | hc | hc <;> simp [hc]

/-- A host does not traverse, alone or behind the user of Git. -/
lemma hasTraversal_userStart {user : Option Str} (huser : user = none ∨ user = some "git".toList) :
    hasTraversal (userStart user ++ typed) = false := by
  rcases huser with rfl | rfl
  · exact h.hasTraversal_eq
  · exact hasTraversal_append (forall_mem_of_all (by decide)) ⟨'g', by decide, by decide⟩
      h.hasTraversal_eq

/-- In front of a colon it may stand so too. -/
lemma hasTraversal_scp {user : Option Str} (huser : user = none ∨ user = some "git".toList)
    {path : Str} (hpath : hasTraversal path = false) :
    hasTraversal (userStart user ++ typed ++ ':' :: path) = false := by
  have hsplit : userStart user ++ typed ++ ':' :: path =
      (userStart user ++ typed ++ [':']) ++ path := by simp
  rw [hsplit]
  refine hasTraversal_append ?_ ⟨':', by simp, by decide⟩ hpath
  have hstart : ∀ c ∈ userStart user, c ≠ '/' ∧ c ≠ '\\' := by
    rcases huser with rfl | rfl <;> exact forall_mem_of_all (by decide)
  intro c hc
  rcases List.mem_append.mp hc with hc | hc
  · exact (List.mem_append.mp hc).elim (hstart c) (h.noSeparator c)
  · obtain rfl := List.mem_singleton.mp hc
    exact ⟨by decide, by decide⟩

end IsTyped

/-- An address behind the user of Git has no scheme. -/
lemma hasScheme_scp (typed path : Str) :
    hasScheme (userStart (some "git".toList) ++ typed ++ ':' :: path) = false := by
  have hsplit : userStart (some "git".toList) ++ typed ++ ':' :: path =
      "git".toList ++ '@' :: (typed ++ ':' :: path) := by
    rw [userStart, List.append_assoc, List.append_assoc]
    rfl
  rw [hsplit]
  exact hasScheme_append_eq_false (by decide) (by decide) (by decide) _

/-! ## Paths -/

section

variable {owner name : Str} (howner : IsOwner owner) (hname : IsSegment name)
include howner hname

/-- The path of a URL may end in `.git`. -/
lemma trimRepoPath_append_git :
    trimRepoPath ('/' :: (owner ++ '/' :: (name ++ ".git".toList))) = owner ++ '/' :: name := by
  have htrimmed := trimSep_owner_name howner.nonempty howner.start hname.nonempty
    (hname.not_mem (by decide))
  have hslash : '/' ∉ name ++ ".git".toList := by
    rw [List.mem_append, not_or]
    exact ⟨hname.not_mem (by decide), by decide⟩
  have htrim := trimSep_owner_name howner.nonempty howner.start
    (show name ++ ".git".toList ≠ [] by simp) hslash
  have hstrip : stripSuffix ".git".toList (owner ++ '/' :: (name ++ ".git".toList)) =
      some (owner ++ '/' :: name) := by
    rw [stripSuffix_eq_some_iff, List.append_assoc, List.cons_append]
  unfold trimRepoPath
  rw [trimSep_sep_cons, htrim]
  simp only [hstrip, Option.getD_some, htrimmed]

/-- The path of a URL may end in a slash. -/
lemma trimRepoPath_append_slash (hgit : ¬".git".toList <:+ name) :
    trimRepoPath ('/' :: (owner ++ '/' :: (name ++ ['/']))) = owner ++ '/' :: name := by
  have htrim : trimSep '/' (owner ++ '/' :: (name ++ ['/'])) =
      trimSep '/' (owner ++ '/' :: name) := by
    obtain ⟨c, rest, rfl⟩ := List.exists_cons_of_ne_nil howner.nonempty
    have hc : c ≠ '/' := fun heq => howner.start (by rw [heq]; rfl)
    have hassoc : c :: rest ++ '/' :: (name ++ ['/']) = (c :: rest ++ '/' :: name) ++ ['/'] := by
      simp
    unfold trimSep
    rw [hassoc, List.cons_append, List.cons_append, List.dropWhile_cons_of_neg (by simpa using hc),
      List.dropWhile_cons_of_neg (by simpa using hc), ← List.cons_append,
      List.rdropWhile_concat_pos _ _ _ (by simp)]
  have hcanonical := trimRepoPath_canonical howner.nonempty howner.start hname.nonempty
    (hname.not_mem (by decide)) hgit
  unfold trimRepoPath at hcanonical ⊢
  rw [trimSep_sep_cons] at hcanonical ⊢
  rwa [htrim]

end

/-! ## Spellings -/

section

variable (parse : Str → Except Str ParsedUrl) (debug : Str → Str) (aws : AwsEnv)

/-- A target becomes the given repository, whatever the user settings. -/
def LeadsTo (input host owner name : Str) : Prop :=
  ∀ scapUser completeUser, ∃ repo,
    fromInput parse debug aws input scapUser completeUser = .ok repo ∧
      repo.host = host ∧ repo.owner = owner ∧ repo.name = name

end

section

variable {parse : Str → Except Str ParsedUrl} {debug : Str → Str} {aws : AwsEnv}

/-- A target that is parsed as a URL becomes the repository the URL shows. -/
lemma leadsTo_of_parsed {input value typed owner name : Str} {kind : NormalizedKind}
    {parsed : ParsedUrl} (hne : input ≠ []) (hfree : hasTraversal input = false)
    (hcodecommit : parseCodecommit input = none)
    (hnormalized : normalizeToParseable input = ⟨value, kind⟩) (hkind : kind ≠ .bare)
    (hparse : parse value = .ok parsed) (hhost : parsed.host = some typed) (hslash : '/' ∉ name)
    (hpath : trimRepoPath parsed.path = owner ++ '/' :: name) :
    LeadsTo parse debug aws input (toAsciiLowercase typed) owner name := by
  intro scapUser completeUser
  have hresult : fromInput parse debug aws input scapUser completeUser =
      fromParsed debug input parsed := by
    unfold fromInput
    rw [if_neg hne, hfree, hcodecommit]
    simp only [hnormalized, if_neg hkind, hparse, Bool.false_eq_true, if_false]
  exact ⟨_, hresult.trans (fromParsed_of_path hhost hslash hpath), rfl, rfl, rfl⟩

/-- A URL is handed on as it is. -/
lemma normalizeToParseable_urlText {scheme : Str}
    (hkind : scheme = "https".toList ∨ scheme = "ssh".toList) (user : Option Str)
    (host path : Str) :
    normalizeToParseable (urlText scheme user host path) =
      ⟨urlText scheme user host path, .hasScheme⟩ :=
  if_pos (hasScheme_urlText hkind user host path).1

/-- A target with a scheme. -/
lemma leadsTo_of_scheme {scheme typed owner name path : Str} {user : Option Str}
    {parsed : ParsedUrl} (hkind : scheme = "https".toList ∨ scheme = "ssh".toList)
    (hparse : parse (urlText scheme user typed ('/' :: path)) = .ok parsed)
    (hhost : parsed.host = some typed) (hpath : parsed.path = '/' :: path)
    (hfree : hasTraversal (userStart user ++ typed) = false) (hpathFree : hasTraversal path = false)
    (hslash : '/' ∉ name) (htrim : trimRepoPath ('/' :: path) = owner ++ '/' :: name) :
    LeadsTo parse debug aws (urlText scheme user typed ('/' :: path)) (toAsciiLowercase typed) owner
      name := by
  obtain ⟨hscheme, hcodecommit⟩ := hasScheme_urlText hkind user typed ('/' :: path)
  have hne : urlText scheme user typed ('/' :: path) ≠ [] := by
    intro hnil
    rw [hnil] at hscheme
    cases hscheme
  refine leadsTo_of_parsed hne ?_ hcodecommit (if_pos hscheme) nofun hparse hhost hslash ?_
  · rw [hasTraversal_urlText hkind, hfree, hpathFree]
    rfl
  · rw [hpath, htrim]

/-- A target like the argument of `scp`. -/
lemma leadsTo_of_scp {typed owner name path given : Str} {user : Option Str}
    (hparse : SplitsVerbatim parse
      (normalizeToParseable (userStart user ++ typed ++ ':' :: given)).value)
    (htyped : IsTyped typed) (huser : ∀ u ∈ user, IsUser u)
    (hgiven : given.dropWhile (· = '/') = path) (hgivenNe : given ≠ [])
    (hscheme : hasScheme (userStart user ++ typed ++ ':' :: given) = false)
    (hfree : hasTraversal (userStart user ++ typed ++ ':' :: given) = false)
    (hslash : '/' ∉ name) (htrim : trimRepoPath ('/' :: path) = owner ++ '/' :: name) :
    LeadsTo parse debug aws (userStart user ++ typed ++ ':' :: given) (toAsciiLowercase typed) owner
      name := by
  have hleft : ∀ c ∈ [':', '/'], c ∉ userStart user ++ typed := by
    have htypedFree : ∀ c ∈ [':', '/'], c ∉ typed := by
      simpa using ⟨htyped.noColon, htyped.noSlash⟩
    intro c hc hmem
    rcases List.mem_append.mp hmem with hmem | hmem
    · cases user with
      | none => cases hmem
      | some u =>
        have huserFree : ∀ c ∈ [':', '/'], c ∉ u ++ ['@'] := by
          simpa using ⟨(huser u rfl).2, (huser u rfl).1⟩
        exact huserFree c hc hmem
    · exact htypedFree c hc hmem
  have hscp := parseScpLike_append htyped.noAt (hleft ':' (by decide)) (hleft '/' (by decide))
    htyped.nonempty hgivenNe
  have hcodecommit : parseCodecommit (userStart user ++ typed ++ ':' :: given) = none := by
    refine parseCodecommit_append_colon (hleft ':' (by decide)) (fun heq => ?_) given
    have hdot : '.' ∈ "codecommit".toList := by
      rw [← heq]
      exact List.mem_append_right _ htyped.dot
    exact absurd hdot (by decide)
  have hnormalized : normalizeToParseable (userStart user ++ typed ++ ':' :: given) =
      ⟨urlText "ssh".toList user typed ('/' :: path), .scp⟩ := by
    unfold normalizeToParseable
    rw [hscheme, hscp]
    simp only [Bool.false_eq_true, if_false, hgiven]
    cases user <;> simp [urlText, userStart]
  rw [hnormalized] at hparse
  exact leadsTo_of_parsed (by simp) hfree hcodecommit hnormalized (by simp)
    (hparse.ssh user typed path rfl huser htyped.nonempty htyped.isHost) rfl hslash htrim

/-- A target that starts with its host. -/
lemma leadsTo_of_host {typed owner name path : Str}
    (hparse : SplitsVerbatim parse (normalizeToParseable (typed ++ '/' :: path)).value)
    (htyped : IsTyped typed) (hcolon : ':' ∉ path) (hfree : hasTraversal path = false)
    (hslash : '/' ∉ name) (htrim : trimRepoPath ('/' :: path) = owner ++ '/' :: name) :
    LeadsTo parse debug aws (typed ++ '/' :: path) (toAsciiLowercase typed) owner name := by
  have hnoColon : ':' ∉ typed ++ '/' :: path := by
    rw [List.mem_append, List.mem_cons]
    rintro (hmem | hmem | hmem)
    · exact htyped.noColon hmem
    · exact absurd hmem (by decide)
    · exact hcolon hmem
  have hscheme : hasScheme (typed ++ '/' :: path) = false :=
    hasScheme_append_eq_false htyped.noColon (by decide) (by decide) path
  have hnormalized : normalizeToParseable (typed ++ '/' :: path) =
      ⟨urlText "https".toList none typed ('/' :: path), .hostBare⟩ := by
    unfold normalizeToParseable
    rw [hscheme, parseScpLike_of_not_mem hnoColon]
    simp only [Bool.false_eq_true, if_false, (takeWhile_ne_of_not_mem htyped.noSlash path).1,
      htyped.looksLikeAuthority_eq, true_and]
    rw [if_pos (by simp)]
    simp [urlText, userStart]
  have hfreeAll : hasTraversal (typed ++ '/' :: path) = false :=
    hasTraversal_path htyped.hasTraversal_eq hfree
  rw [hnormalized] at hparse
  exact leadsTo_of_parsed (by simp) hfreeAll (parseCodecommit_of_not_mem hnoColon) hnormalized
    (by simp) (hparse.https none typed path rfl (by simp) htyped.nonempty htyped.isHost) rfl hslash
    htrim

/-- An owner and a name alone are a repository on GitHub. -/
lemma leadsTo_of_owner_name {owner name : Str} (howner : IsSegment owner) (hdot : '.' ∉ owner)
    (hname : IsSegment name) (hgit : ¬".git".toList <:+ name) :
    LeadsTo parse debug aws (owner ++ '/' :: name) "github.com".toList owner name := by
  have hnoColon : ':' ∉ owner ++ '/' :: name :=
    colon_not_mem_path (howner.not_mem (by decide)) (hname.not_mem (by decide))
  have hslash : '/' ∉ owner := howner.not_mem (by decide)
  have hfree : hasTraversal (owner ++ '/' :: name) = false :=
    hasTraversal_path howner.hasTraversal_eq hname.hasTraversal_eq
  have hscheme : hasScheme (owner ++ '/' :: name) = false :=
    hasScheme_append_eq_false (howner.not_mem (by decide)) (by decide) (by decide) name
  have hauthority : looksLikeAuthority owner = false := by
    have hnot : ∀ s : Str, '.' ∉ s → looksLikeAuthority s = false := by
      intro s hs
      unfold looksLikeAuthority
      have hcontains : (s.takeWhile fun c => decide (c ≠ ':')).contains '.' = false := by
        rw [Bool.eq_false_iff]
        exact fun hmem => hs ((List.takeWhile_sublist _).mem (List.contains_iff_mem.mp hmem))
      simp only [hcontains, Bool.false_and]
    exact hnot owner hdot
  have hnormalized : normalizeToParseable (owner ++ '/' :: name) =
      ⟨owner ++ '/' :: name, .bare⟩ := by
    unfold normalizeToParseable
    rw [hscheme, parseScpLike_of_not_mem hnoColon]
    simp only [Bool.false_eq_true, if_false, (takeWhile_ne_of_not_mem hslash name).1, hauthority,
      false_and]
  have hstrip : stripSuffix ".git".toList (owner ++ '/' :: name) = none := by
    rw [stripSuffix_append_sep (by decide), stripSuffix_eq_none_iff.mpr hgit, Option.map_none]
  have hpieces : pieces '/' (owner ++ '/' :: name) = [owner, name] := by
    rw [pieces_append_sep, pieces_of_not_mem hslash howner.nonempty,
      pieces_of_not_mem (hname.not_mem (by decide)) hname.nonempty]
    rfl
  intro scapUser completeUser
  have hresult : fromInput parse debug aws (owner ++ '/' :: name) scapUser completeUser =
      .ok (buildGithubRepo (owner ++ '/' :: name) owner name) := by
    unfold fromInput
    rw [if_neg (by simp), hfree, parseCodecommit_of_not_mem hnoColon]
    simp only [hnormalized, Bool.false_eq_true, if_false, if_true]
    unfold fromBare
    rw [trimSep_owner_name howner.nonempty howner.head?_ne hname.nonempty
      (hname.not_mem (by decide))]
    simp only [hstrip, Option.getD_none, hpieces]
  exact ⟨_, hresult, rfl, rfl, rfl⟩

end

/-- **All spellings of a repository lead to it.** A repository of a host with a dot is found under
each of its spellings, in whatever case the host is typed, and one on GitHub under its owner and
name alone, if the owner is one segment without a dot.  Of the parser it is asked that it splits
what the spellings are parsed as. -/
theorem spellings_agree (parse : Str → Except Str ParsedUrl) (debug : Str → Str) (aws : AwsEnv)
    (typed host : Str) (owners : List Str) (name : Str)
    (hparse : ∀ input ∈ spellings typed ("/".toList.intercalate owners) name,
      SplitsVerbatim parse (normalizeToParseable input).value) (hhost : IsHostName host)
    (htyped : toAsciiLowercase typed = host) (hne : owners ≠ [])
    (howners : ∀ segment ∈ owners, IsSegment segment) (hname : IsSegment name)
    (hgit : ¬".git".toList <:+ name) :
    (∀ input ∈ spellings typed ("/".toList.intercalate owners) name,
      LeadsTo parse debug aws input host ("/".toList.intercalate owners) name) ∧
    ∀ owner, owners = [owner] → '.' ∉ owner →
      LeadsTo parse debug aws (owner ++ '/' :: name) "github.com".toList owner name := by
  have htypedHost := hhost.isTyped htyped
  have howner := isOwner_intercalate hne howners
  subst htyped
  refine ⟨?_, fun owner howners' hdot =>
    leadsTo_of_owner_name (howners owner (by simp [howners'])) hdot hname hgit⟩
  generalize "/".toList.intercalate owners = owner at howner hparse
  have hslash : '/' ∉ name := hname.not_mem (by decide)
  -- What may stand behind the owner.
  have hplain := trimRepoPath_canonical howner.nonempty howner.start hname.nonempty hslash hgit
  have hwithGit := trimRepoPath_append_git howner hname
  have hwithSlash := trimRepoPath_append_slash howner hname hgit
  have hplainFree : hasTraversal (owner ++ '/' :: name) = false :=
    hasTraversal_path howner.free hname.hasTraversal_eq
  have hgitFree : hasTraversal (owner ++ '/' :: (name ++ ".git".toList)) = false :=
    hasTraversal_path howner.free hname.hasTraversal_append_git
  have hslashFree : hasTraversal (owner ++ '/' :: (name ++ ['/'])) = false :=
    hasTraversal_path howner.free (hasTraversal_path hname.hasTraversal_eq rfl)
  have hgitUser : ∀ u ∈ some "git".toList, IsUser u := by
    rintro u hu
    obtain rfl := Option.some.inj hu
    exact ⟨by decide, by decide⟩
  have hhttps : ∀ path, SplitsVerbatim parse
        (normalizeToParseable ("https://".toList ++ typed ++ '/' :: path)).value →
      hasTraversal path = false → trimRepoPath ('/' :: path) = owner ++ '/' :: name →
      LeadsTo parse debug aws ("https://".toList ++ typed ++ '/' :: path) (toAsciiLowercase typed)
        owner name := by
    intro path hsplit hpath htrim
    have htext : "https://".toList ++ typed ++ '/' :: path =
        urlText "https".toList none typed ('/' :: path) := by simp [urlText, userStart]
    rw [htext, normalizeToParseable_urlText (.inl rfl)] at hsplit
    rw [htext]
    exact leadsTo_of_scheme (.inl rfl) (hsplit.https none typed path rfl (by simp)
      htypedHost.nonempty htypedHost.isHost) rfl rfl
        (htypedHost.hasTraversal_userStart (.inl rfl)) hpath hslash htrim
  have hnoColon : ':' ∉ owner ++ '/' :: name :=
    colon_not_mem_path (howner.plain ':' (by decide)) (hname.not_mem (by decide))
  intro input hinput
  have hsplit := hparse input hinput
  simp only [spellings, List.mem_cons, List.not_mem_nil, or_false] at hinput
  rcases hinput with rfl | rfl | rfl | rfl | rfl | rfl | rfl | rfl
  · exact hhttps _ hsplit hplainFree hplain
  · exact hhttps _ hsplit hgitFree hwithGit
  · exact hhttps _ hsplit hslashFree hwithSlash
  · have htext : ∀ path, "ssh://git@".toList ++ typed ++ '/' :: path =
        urlText "ssh".toList (some "git".toList) typed ('/' :: path) := by simp [urlText, userStart]
    rw [htext, normalizeToParseable_urlText (.inr rfl)] at hsplit
    rw [htext]
    exact leadsTo_of_scheme (.inr rfl) (hsplit.ssh (some "git".toList) typed _ rfl hgitUser
      htypedHost.nonempty htypedHost.isHost) rfl rfl
        (htypedHost.hasTraversal_userStart (.inr rfl)) hgitFree hslash hwithGit
  · exact leadsTo_of_scp hsplit htypedHost hgitUser (howner.dropWhile_slash _) (by simp)
      (hasScheme_scp typed _) (htypedHost.hasTraversal_scp (.inr rfl) hgitFree) hslash hwithGit
  · exact leadsTo_of_scp hsplit htypedHost hgitUser (howner.dropWhile_slash _) (by simp)
      (hasScheme_scp typed _)
      (htypedHost.hasTraversal_scp (.inr rfl) (by rwa [hasTraversal_sep_cons])) hslash hplain
  · exact leadsTo_of_scp hsplit htypedHost (show ∀ u ∈ none, IsUser u by simp)
      (howner.dropWhile_slash _) (by simp)
      (hasScheme_append_colon htypedHost.noColon (howner.not_slashes _))
      (htypedHost.hasTraversal_scp (.inl rfl) hplainFree) hslash hplain
  · exact leadsTo_of_host hsplit htypedHost hnoColon hplainFree hslash hplain

/-- An scp-like spelling with letters in both cases leads to the host in lower case. -/
theorem spellings_agree_sample :
    LeadsTo splitUrl id ⟨none, none, none⟩ "git@GitHub.com:a/b.c/d.e.git".toList
      "github.com".toList "a/b.c".toList "d.e".toList := by
  have hsegment : ∀ segment ∈ ["a".toList, "b.c".toList, "d.e".toList], IsSegment segment := by
    refine List.forall_mem_cons.mpr
      ⟨?_, List.forall_mem_cons.mpr ⟨?_, List.forall_mem_singleton.mpr ?_⟩⟩
    all_goals exact ⟨by decide, by decide, by decide, forall_mem_of_all (by decide)⟩
  have hagree := spellings_agree splitUrl id ⟨none, none, none⟩ "GitHub.com".toList
    "github.com".toList ["a".toList, "b.c".toList] "d.e".toList
    (fun input _ => splitsVerbatim_splitUrl _)
    ⟨forall_mem_of_all (by decide), by decide, by decide⟩ (by decide) (by simp)
    (fun segment h => hsegment segment (by revert h; simp; tauto)) (hsegment _ (by simp))
      (by decide)
  exact hagree.1 _ (by decide)

end Scap
