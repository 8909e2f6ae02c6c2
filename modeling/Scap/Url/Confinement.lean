import Scap.Url.Input

/-!
# Where a target may put a repository

`from_input` looks for `..` in the target as it was typed.  Afterwards it cuts the target at `@`,
`:` and `/` and removes a `.git`, and any of these may uncover a `.` or `..` the check has not seen.
`confined_iff_harmless` says exactly when the destination is confined, as a condition on the pieces
of the target (`Harmless`).
-/

namespace Scap

/-- A piece that is no name of its own. -/
def IsDots (piece : Str) : Prop := piece = ".".toList ∨ piece = "..".toList

instance (piece : Str) : Decidable (IsDots piece) :=
  inferInstanceAs (Decidable (_ ∨ _))

/-- The pieces before the repository's own name; a last piece `.git` is not that name. -/
def ownerPieces (ps : List Str) : List Str :=
  if ps.getLast? = some ".git".toList then ps.dropLast.dropLast else ps.dropLast

/-- The pieces of a repository path are harmless.  No piece is `.` or `..`, and the last one is not
`..git` or `...git`; with `bare`, where the directory is named `<name>.git`, only the pieces before
the repository's own name matter. -/
def HarmlessPieces (bare : Bool) (ps : List Str) : Prop :=
  (∀ piece ∈ ownerPieces ps, ¬IsDots piece) ∧
    (bare = false → (∀ piece ∈ ps, ¬IsDots piece) ∧
      ∀ last ∈ ps.getLast?, last ≠ "..git".toList ∧ last ≠ "...git".toList)

instance (bare : Bool) (ps : List Str) : Decidable (HarmlessPieces bare ps) :=
  inferInstanceAs (Decidable (_ ∧ _))

/-- A bare name with one piece, not counting a last piece `.git`. -/
def IsSingle (ps : List Str) : Prop :=
  (if ps.getLast? = some ".git".toList then ps.dropLast else ps).length = 1

instance (ps : List Str) : Decidable (IsSingle ps) := inferInstanceAs (Decidable (_ = _))

/-- The targets whose destination is confined.

A CodeCommit target needs a name other than `.` and `..`, unless the clone is bare, and a region of
ordinary pieces, if the environment has to supply one.  Every other target needs a harmless
repository path: the path of the URL it stands for, or the target itself when it is a bare name.  A
bare name of one piece also names the owner when no user is completed, so there `bare` makes no
difference. -/
def Harmless (parse : Str → Except Str ParsedUrl) (aws : AwsEnv) (input : Str)
    (completeUser bare : Bool) :
    Prop :=
  match parseCodecommit input with
  | some codecommit => (bare = false → ¬IsDots codecommit.name) ∧
      (codecommit.region = none → ∀ region, resolveCodecommitRegion aws = .ok region →
        ∀ part ∈ baseParts region, Ordinary part)
  | none =>
    if (normalizeToParseable input).kind = .bare then
      HarmlessPieces (bare && (completeUser || !decide (IsSingle (pieces '/' input))))
        (pieces '/' input)
    else ∀ parsed, parse (normalizeToParseable input).value = .ok parsed →
      HarmlessPieces bare (pieces '/' parsed.path)

/-- A URL is harmless if the pieces of the path it is parsed to are. -/
lemma harmless_url_iff {parse : Str → Except Str ParsedUrl} {aws : AwsEnv} {input : Str}
    {completeUser bare : Bool} (hcodecommit : parseCodecommit input = none)
    (hkind : (normalizeToParseable input).kind ≠ .bare) :
    Harmless parse aws input completeUser bare ↔
      ∀ parsed, parse (normalizeToParseable input).value = .ok parsed →
        HarmlessPieces bare (pieces '/' parsed.path) := by
  unfold Harmless
  rw [hcodecommit, if_neg hkind]

/-! ## Pieces -/

/-- A nonempty piece without a slash is ordinary unless it is dots. -/
lemma ordinary_iff {piece : Str} (hne : piece ≠ []) (hslash : '/' ∉ piece) :
    Ordinary piece ↔ ¬IsDots piece := by
  rw [IsDots, not_or]
  exact ⟨fun h => ⟨h.ne_dot, h.ne_dotDot⟩, fun h => ⟨hne, h.1, h.2, hslash⟩⟩

/-- A directory named after a bare clone is ordinary. -/
lemma ordinary_append_git {name : Str} (hslash : '/' ∉ name) :
    Ordinary (name ++ ".git".toList) where
  nonempty := by simp
  ne_dot h := by
    have := congrArg List.length h
    simp at this
  ne_dotDot h := by
    have := congrArg List.length h
    simp at this
  noSlash h := by
    rcases List.mem_append.mp h with h | h
    · exact hslash h
    · exact absurd h (by decide)

/-- The directory of a repository is ordinary if it has a suffix, or its name is not dots. -/
lemma Repo.ordinary_dirName_iff {repo : Repo} {bare : Bool} (hne : repo.name ≠ [])
    (hslash : '/' ∉ repo.name) :
    Ordinary (repo.dirName bare) ↔ (bare = false → ¬IsDots repo.name) := by
  cases bare with
  | false => simpa [Repo.dirName] using ordinary_iff hne hslash
  | true => simpa [Repo.dirName] using ordinary_append_git hslash

/-- Confinement, by what the components come from. -/
lemma Repo.confined_iff_parts {repo : Repo} {bare : Bool} (hne : repo.name ≠ [])
    (hslash : '/' ∉ repo.name) :
    repo.Confined bare ↔ (∀ part ∈ baseParts repo.host, Ordinary part) ∧
      (∀ piece ∈ pieces '/' repo.owner, ¬IsDots piece) ∧ (bare = false → ¬IsDots repo.name) := by
  have hparts := splitOn_relPath repo bare hslash
  have howner : (∀ piece ∈ pieces '/' repo.owner, Ordinary piece) ↔
      ∀ piece ∈ pieces '/' repo.owner, ¬IsDots piece :=
    forall₂_congr fun piece hpiece =>
      ordinary_iff (ne_nil_of_mem_pieces hpiece) (not_mem_of_mem_pieces hpiece)
  rw [Repo.confined_iff repo bare (by simp [hparts]), hparts, List.forall_mem_append,
    List.forall_mem_append, List.forall_mem_singleton, howner, Repo.ordinary_dirName_iff hne hslash,
    and_assoc]

/-- Removing `.git` from the last piece, in terms of the pieces as they stand. -/
lemma harmlessPieces_iff {bare : Bool} {ps init : List Str} {name : Str}
    (h : stripPieces ".git".toList ps = init ++ [name]) :
    HarmlessPieces bare ps ↔ (∀ piece ∈ init, ¬IsDots piece) ∧ (bare = false → ¬IsDots name) := by
  have hgit : ¬IsDots ".git".toList := by decide
  rcases List.eq_nil_or_concat' ps with rfl | ⟨ps, last, rfl⟩
  · simp [stripPieces] at h
  · cases hstrip : stripSuffix ".git".toList last with
    | none =>
      -- There is no `.git` to remove.
      have hne : last ≠ ".git".toList := by
        rintro rfl
        exact absurd hstrip (by decide)
      have hlast : last ≠ "..git".toList ∧ last ≠ "...git".toList := by
        constructor <;> rintro rfl <;> exact absurd hstrip (by decide)
      obtain ⟨rfl, rfl⟩ : ps = init ∧ last = name := by
        simp only [stripPieces, List.getLast?_concat, Option.bind_some, hstrip] at h
        have := List.append_inj' h rfl
        exact ⟨this.1, by simpa using this.2⟩
      simp only [HarmlessPieces, ownerPieces, List.getLast?_concat, Option.some.injEq, hne,
        if_false, List.dropLast_concat, Option.mem_def, forall_eq', List.forall_mem_append,
        List.forall_mem_singleton]
      grind
    | some rest =>
      have hrest := stripSuffix_eq_some_iff.mp hstrip
      cases rest with
      | nil =>
        -- The last piece is `.git`, so the name is the one before.
        obtain rfl : ".git".toList = last := hrest
        obtain rfl : ps = init ++ [name] := by
          simp only [stripPieces, List.getLast?_concat, Option.bind_some, hstrip,
            List.dropLast_concat] at h
          exact h
        have hlast : ".git".toList ≠ "..git".toList ∧ ".git".toList ≠ "...git".toList := by decide
        simp only [HarmlessPieces, ownerPieces, List.getLast?_concat, if_true, List.dropLast_concat,
          Option.mem_def, Option.some.injEq, forall_eq', List.forall_mem_append,
          List.forall_mem_singleton, hgit]
        grind
      | cons c rest =>
        -- A `.git` was cut off the last piece.
        have hne : last ≠ ".git".toList := by
          rintro rfl
          have := congrArg List.length hrest
          simp at this
        obtain ⟨rfl, rfl⟩ : ps = init ∧ c :: rest = name := by
          simp only [stripPieces, List.getLast?_concat, Option.bind_some, hstrip,
            List.dropLast_concat] at h
          have := List.append_inj' h rfl
          exact ⟨this.1, by simpa using this.2⟩
        have hlast : ¬IsDots last := by
          rintro (rfl | rfl) <;> exact absurd (congrArg List.length hrest) (by simp)
        have hdots : IsDots (c :: rest) ↔ last = "..git".toList ∨ last = "...git".toList := by
          rw [← hrest, IsDots]
          exact or_congr ⟨fun h => by rw [h]; rfl, fun h => List.append_cancel_right (h.trans rfl)⟩
            ⟨fun h => by rw [h]; rfl, fun h => List.append_cancel_right (h.trans rfl)⟩
        simp only [HarmlessPieces, ownerPieces, List.getLast?_concat, Option.some.injEq, hne,
          if_false, List.dropLast_concat, Option.mem_def, forall_eq', List.forall_mem_append,
          List.forall_mem_singleton, hlast, hdots]
        grind

/-- Whether a bare name has one piece once `.git` is removed. -/
lemma isSingle_iff (ps : List Str) : IsSingle ps ↔ (stripPieces ".git".toList ps).length = 1 := by
  unfold IsSingle
  rcases List.eq_nil_or_concat' ps with rfl | ⟨ps, last, rfl⟩
  · simp [stripPieces]
  · simp only [stripPieces, List.getLast?_concat, Option.bind_some, Option.some.injEq,
      List.dropLast_concat]
    cases hstrip : stripSuffix ".git".toList last with
    | none =>
      rw [if_neg]
      rintro rfl
      exact absurd hstrip (by decide)
    | some rest =>
      have hrest := stripSuffix_eq_some_iff.mp hstrip
      cases rest with
      | nil =>
        obtain rfl : ".git".toList = last := hrest
        rw [if_pos rfl]
      | cons c rest =>
        rw [if_neg]
        · simp
        · rintro rfl
          have := congrArg List.length hrest
          simp at this

/-! ## The routes -/

/-- The pieces of a value once it is trimmed and `.git` is removed. -/
lemma pieces_getD_stripSuffix (value : Str) :
    pieces '/' ((stripSuffix ".git".toList (trimSep '/' value)).getD (trimSep '/' value)) =
      stripPieces ".git".toList (pieces '/' value) := by
  rw [pieces_stripSuffix (by decide) (getLast?_trimSep_ne value), pieces_trimSep]

/-- Trimming once more leaves the pieces. -/
lemma pieces_trimRepoPath (path : Str) :
    pieces '/' (trimRepoPath path) = stripPieces ".git".toList (pieces '/' path) := by
  unfold trimRepoPath
  rw [pieces_trimSep, pieces_getD_stripSuffix]

/-- The pieces that are left are not empty and hold no slash. -/
lemma piece_spec_of_stripPieces {value : Str} {ps : List Str}
    (h : stripPieces ".git".toList (pieces '/' value) = ps) :
    ∀ piece ∈ ps, piece ≠ [] ∧ '/' ∉ piece := by
  intro piece hmem
  rw [← h, ← pieces_getD_stripSuffix] at hmem
  exact ⟨ne_nil_of_mem_pieces hmem, not_mem_of_mem_pieces hmem⟩

/-- The host of a repository is the one given, in lower case. -/
lemma parsedHost_spec {original host : Str} {parsed : ParsedUrl}
    (h : parsedHost original parsed = .ok host) :
    host = [] ∨ ∃ given, parsed.host = some given ∧ host = toAsciiLowercase given := by
  unfold parsedHost at h
  split at h
  · rename_i given hgiven
    injection h with h
    exact .inr ⟨given, hgiven, h.symm⟩
  · split at h
    · injection h with h
      exact .inl h.symm
    · cases h

/-- A URL: the path is cut into the owner and the name. -/
lemma fromParsed_spec {debug : Str → Str} {original : Str} {parsed : ParsedUrl} {repo : Repo}
    (h : fromParsed debug original parsed = .ok repo) :
    (repo.host = [] ∨ ∃ host, parsed.host = some host ∧ repo.host = toAsciiLowercase host) ∧
      stripPieces ".git".toList (pieces '/' parsed.path) = pieces '/' repo.owner ++ [repo.name] ∧
      repo.name ≠ [] ∧ '/' ∉ repo.name := by
  rw [← pieces_trimRepoPath]
  have hlast : (trimRepoPath parsed.path).getLast? ≠ some '/' := by
    unfold trimRepoPath
    exact getLast?_trimSep_ne _
  unfold fromParsed at h
  obtain ⟨host, hhost, h⟩ := bind_eq_ok.mp h
  generalize trimRepoPath parsed.path = trimmed at h hlast
  simp only at h
  split at h
  · cases h
  · rename_i hne
    split at h
    · cases h
    · rename_i hlength
      injection h with h
      subst h
      obtain ⟨name, hname, hget, hpieces⟩ := exists_pieces_eq hne hlast
      have hslash : '/' ∉ name := not_mem_of_mem_splitOn (List.mem_of_mem_getLast? hget)
      refine ⟨?_, ?_, ?_, ?_⟩
      · exact parsedHost_spec hhost
      · have hdrop : (trimmed.splitOn '/').dropLast ≠ [] := by
          rw [← List.length_pos_iff_ne_nil, List.length_dropLast]
          omega
        have howner : ("/".toList.intercalate (trimmed.splitOn '/').dropLast).splitOn '/' =
            (trimmed.splitOn '/').dropLast := by
          apply List.splitOn_intercalate '/'
          · exact fun piece hpiece =>
              not_mem_of_mem_splitOn ((List.dropLast_sublist _).mem hpiece)
          · exact hdrop
        show _ = pieces '/' ("/".toList.intercalate (trimmed.splitOn '/').dropLast) ++ _
        rw [hpieces, hget, Option.getD_some]
        unfold pieces
        rw [howner]
      · rwa [hget, Option.getD_some]
      · rwa [hget, Option.getD_some]

/-- A bare name is taken as it is. -/
lemma normalizeToParseable_bare {input : Str} (h : (normalizeToParseable input).kind = .bare) :
    (normalizeToParseable input).value = input := by
  unfold normalizeToParseable at h ⊢
  split
  · rfl
  · rename_i hscheme
    rw [if_neg hscheme] at h
    split
    · rename_i hscp
      rw [hscp] at h
      exact nomatch h
    · rename_i hscp
      rw [hscp] at h
      simp only at h ⊢
      split at h
      · exact nomatch h
      · rename_i hauthority
        rw [if_neg hauthority]

/-- A bare name: one piece, with the user or itself as the owner, or two. -/
lemma fromBare_spec {original value : Str} {scapUser : Option Str} {completeUser : Bool}
    {repo : Repo} (h : fromBare original value scapUser completeUser = .ok repo) :
    repo.host = "github.com".toList ∧
      (stripPieces ".git".toList (pieces '/' value) = [repo.name] ∧
          (if completeUser then scapUser = some repo.owner else repo.owner = repo.name) ∨
        stripPieces ".git".toList (pieces '/' value) = [repo.owner, repo.name]) := by
  unfold fromBare at h
  simp only [pieces_getD_stripSuffix] at h
  split at h
  · cases h
  · rename_i project hproject
    cases completeUser with
    | true =>
      cases scapUser with
      | some user =>
        injection h with h
        subst h
        exact ⟨rfl, .inl ⟨hproject, rfl⟩⟩
      | none => cases h
    | false =>
      injection h with h
      subst h
      exact ⟨rfl, .inl ⟨hproject, rfl⟩⟩
  · rename_i owner name hparts
    injection h with h
    subst h
    exact ⟨rfl, .inr hparts⟩
  · cases h

/-- A region from the pattern is an ordinary name. -/
lemma ordinary_of_isRegion {region : Str} (h : isRegion region) : Ordinary region := by
  have hlower : ∀ c : Char, c.isLower → c ≠ '.' ∧ c ≠ '/' := by
    rintro c hc
    constructor <;> rintro rfl <;> exact absurd hc (by decide)
  unfold isRegion at h
  split at h
  · rename_i c d rest
    rw [Bool.and_eq_true, List.all_eq_true] at h
    obtain ⟨hc, hall⟩ := h
    exact {
      nonempty := by simp
      ne_dot := fun heq => (hlower c hc).1 (List.cons.inj heq).1
      ne_dotDot := fun heq => (hlower c hc).1 (List.cons.inj heq).1
      noSlash := fun hmem => (List.mem_cons.mp hmem).elim (fun heq => (hlower c hc).2 heq.symm)
        fun hmem => absurd (hall _ hmem) (by decide) }
  · exact absurd h Bool.false_ne_true

/-- A region that a CodeCommit reference gives is ordinary. -/
lemma codecommitRegion_spec {rest after region : Str}
    (h : codecommitRegion rest = some (some region, after)) : Ordinary region := by
  unfold codecommitRegion at h
  split at h
  · split at h
    · split at h
      · rename_i hregion
        cases h
        exact ordinary_of_isRegion hregion
      · cases h
    · cases h
  · cases h

/-- A CodeCommit reference has a name without a slash. -/
lemma codecommitUserName_spec {authority name : Str} {user : Option Str}
    (h : codecommitUserName authority = some (user, name)) : name ≠ [] ∧ '/' ∉ name := by
  unfold codecommitUserName at h
  generalize splitUser authority = groups at h
  simp only at h
  split at h
  · cases h
  · split at h
    · cases h
    · rename_i hname
      obtain ⟨hne, hall⟩ := not_or.mp hname
      cases h
      refine ⟨hne, fun hslash => ?_⟩
      have := List.all_eq_true.mp (not_not.mp hall) _ hslash
      exact absurd this (by decide)

/-- What the CodeCommit pattern says of its groups. -/
lemma parseCodecommit_spec {input : Str} {codecommit : CodecommitRef}
    (h : parseCodecommit input = some codecommit) :
    codecommit.name ≠ [] ∧ '/' ∉ codecommit.name ∧
      ∀ region, codecommit.region = some region → Ordinary region := by
  unfold parseCodecommit at h
  obtain ⟨rest, -, h⟩ := Option.bind_eq_some_iff.mp h
  obtain ⟨⟨region, after⟩, hregion, h⟩ := Option.bind_eq_some_iff.mp h
  obtain ⟨authority, -, h⟩ := Option.bind_eq_some_iff.mp h
  obtain ⟨⟨user, name⟩, hname, h⟩ := Option.bind_eq_some_iff.mp h
  cases h
  obtain ⟨hne, hslash⟩ := codecommitUserName_spec hname
  refine ⟨hne, hslash, ?_⟩
  rintro given rfl
  exact codecommitRegion_spec hregion

/-- Only a letter becomes a lowercase letter. -/
lemma eq_of_toLower_eq {c d : Char} (hd : d.isLower = false) (h : c.toLower = d) : c = d := by
  unfold Char.toLower at h
  split at h
  · rename_i hupper
    have hlow : 65 ≤ c.val.toNat := hupper.1
    have hhigh : c.val.toNat ≤ 90 := hupper.2
    have hval : d.val.toNat = c.val.toNat + 32 := by
      subst h
      show (c.val + 32).toNat = _
      have hsum : c.val.toNat + (32 : UInt32).toNat = c.val.toNat + 32 := rfl
      rw [UInt32.toNat_add, hsum, Nat.mod_eq_of_lt (by omega)]
    have hlower : d.isLower = true := by
      have hrange : d.isLower = (decide (d.val ≥ 97) && decide (d.val ≤ 122)) := rfl
      simp only [hrange, ge_iff_le, UInt32.le_iff_toNat_le, hval, Bool.and_eq_true,
        decide_eq_true_eq]
      exact ⟨by simpa using hlow, by simpa using hhigh⟩
    exact absurd (hd.symm.trans hlower) Bool.false_ne_true
  · exact h

/-- The lowercase form of a host is as ordinary as the host. -/
lemma Ordinary.toAsciiLowercase {host : Str} (h : Ordinary host) :
    Ordinary (toAsciiLowercase host) where
  nonempty hnil := h.nonempty (List.map_eq_nil_iff.mp hnil)
  ne_dot hdot := by
    obtain ⟨c, rfl, hc⟩ := List.map_eq_singleton_iff.mp hdot
    exact h.ne_dot (congrArg (fun c => [c]) (eq_of_toLower_eq (by decide) hc))
  ne_dotDot hdots := by
    obtain ⟨c, rest, rfl, hc, hrest⟩ := List.map_eq_cons_iff.mp hdots
    obtain ⟨d, rfl, hd⟩ := List.map_eq_singleton_iff.mp hrest
    exact h.ne_dotDot (congrArg₂ (fun c d => [c, d]) (eq_of_toLower_eq (by decide) hc)
      (eq_of_toLower_eq (by decide) hd))
  noSlash hmem := by
    obtain ⟨c, hc, hlower⟩ := List.mem_map.mp hmem
    exact h.noSlash (eq_of_toLower_eq (by decide) hlower ▸ hc)

/-! ## The destination of a target -/

/-- The destination of a CodeCommit target. -/
lemma confined_codecommit_iff {aws : AwsEnv} {input : Str} {codecommit : CodecommitRef}
    {repo : Repo} (hparse : parseCodecommit input = some codecommit)
    (h : finalizeCodecommit aws input codecommit = .ok repo) (bare : Bool) :
    repo.Confined bare ↔ (bare = false → ¬IsDots codecommit.name) ∧
      (codecommit.region = none → ∀ region, resolveCodecommitRegion aws = .ok region →
        ∀ part ∈ baseParts region, Ordinary part) := by
  obtain ⟨hne, hslash, hregion⟩ := parseCodecommit_spec hparse
  unfold finalizeCodecommit at h
  obtain ⟨host, hhost, h⟩ := bind_eq_ok.mp h
  injection h with h
  subst h
  rw [Repo.confined_iff_parts hne hslash]
  simp only [pieces_nil, List.not_mem_nil, false_implies, implies_true, true_and]
  rw [and_comm]
  apply and_congr_right'
  unfold codecommitHost at hhost
  split at hhost
  · rename_i region heq
    injection hhost with hhost
    subst hhost
    rw [(hregion _ heq).baseParts_eq, heq]
    simpa using hregion _ heq
  · rename_i heq
    constructor
    · rintro hparts - region hresolve
      rw [hresolve] at hhost
      injection hhost with hhost
      rwa [hhost]
    · exact fun hparts => hparts heq _ hhost

/-- The destination of a URL. -/
lemma confined_fromParsed_iff {debug : Str → Str} {original : Str} {parsed : ParsedUrl}
    {repo : Repo} (hhost : ∀ host, parsed.host = some host → Ordinary host)
    (h : fromParsed debug original parsed = .ok repo) (bare : Bool) :
    repo.Confined bare ↔ HarmlessPieces bare (pieces '/' parsed.path) := by
  obtain ⟨hhostEq, hpieces, hne, hslash⟩ := fromParsed_spec h
  have hparts : ∀ part ∈ baseParts repo.host, Ordinary part := by
    rcases hhostEq with heq | ⟨host, hgiven, heq⟩
    · simp [heq]
    · have hordinary := (hhost host hgiven).toAsciiLowercase
      rw [heq, hordinary.baseParts_eq]
      simpa using hordinary
  rw [Repo.confined_iff_parts hne hslash, harmlessPieces_iff hpieces]
  exact and_iff_right hparts

/-- The destination of a bare name. -/
lemma confined_fromBare_iff {original value : Str} {scapUser : Option Str} {completeUser : Bool}
    {repo : Repo} (huser : ∀ user, scapUser = some user → Ordinary user)
    (h : fromBare original value scapUser completeUser = .ok repo) (bare : Bool) :
    repo.Confined bare ↔
      HarmlessPieces (bare && (completeUser || !decide (IsSingle (pieces '/' value))))
        (pieces '/' value) := by
  obtain ⟨hhost, hparts⟩ := fromBare_spec h
  have hgithub : Ordinary repo.host := by
    rw [hhost]
    decide
  have hbase : ∀ part ∈ baseParts repo.host, Ordinary part := by
    simpa [hgithub.baseParts_eq] using hgithub
  rcases hparts with ⟨hname, howner⟩ | hparts
  · have hsingle : IsSingle (pieces '/' value) := by
      rw [isSingle_iff, hname]
      rfl
    obtain ⟨hne, hslash⟩ := piece_spec_of_stripPieces hname repo.name (by simp)
    rw [Repo.confined_iff_parts hne hslash,
      harmlessPieces_iff (show _ = [] ++ [repo.name] from hname), and_iff_right hbase]
    cases completeUser with
    | true =>
      have hordinary := huser _ howner
      have hdots := (ordinary_iff hordinary.nonempty hordinary.noSlash).mp hordinary
      simp [pieces_of_not_mem hordinary.noSlash hordinary.nonempty, hdots]
    | false =>
      have hname : repo.owner = repo.name := howner
      rw [hname, pieces_of_not_mem hslash hne]
      simp [hsingle]
      grind
  · have hsingle : ¬IsSingle (pieces '/' value) := by
      rw [isSingle_iff, hparts]
      simp
    obtain ⟨hne, hslash⟩ := piece_spec_of_stripPieces hparts repo.name (by simp)
    obtain ⟨hownerNe, hownerSlash⟩ := piece_spec_of_stripPieces hparts repo.owner (by simp)
    rw [Repo.confined_iff_parts hne hslash,
      harmlessPieces_iff (show _ = [repo.owner] ++ [repo.name] from hparts),
      and_iff_right hbase, pieces_of_not_mem hownerSlash hownerNe]
    simp [hsingle]

/-- The route taken by a target that `from_input` accepts. -/
lemma fromInput_cases {input : Str} {scapUser : Option Str} {completeUser : Bool} {repo : Repo}
    (h : fromInput parse debug aws input scapUser completeUser = .ok repo) :
    input ≠ [] ∧ hasTraversal input = false ∧
      ((∃ codecommit, parseCodecommit input = some codecommit ∧
          finalizeCodecommit aws input codecommit = .ok repo) ∨
        (parseCodecommit input = none ∧ (normalizeToParseable input).kind = .bare ∧
          fromBare input input scapUser completeUser = .ok repo) ∨
        (parseCodecommit input = none ∧ (normalizeToParseable input).kind ≠ .bare ∧
          ∃ parsed, parse (normalizeToParseable input).value = .ok parsed ∧
            fromParsed debug input parsed = .ok repo)) := by
  unfold fromInput at h
  split at h
  · cases h
  · rename_i hne
    split at h
    · cases h
    · rename_i hfree
      refine ⟨hne, by simpa using hfree, ?_⟩
      split at h
      · rename_i codecommit hcodecommit
        exact .inl ⟨codecommit, hcodecommit, h⟩
      · rename_i hcodecommit
        simp only at h
        split at h
        · rename_i hkind
          rw [normalizeToParseable_bare hkind] at h
          exact .inr (.inl ⟨hcodecommit, hkind, h⟩)
        · rename_i hkind
          split at h
          · cases h
          · rename_i parsed hparsed
            exact .inr (.inr ⟨hcodecommit, hkind, parsed, hparsed, h⟩)

/-- A target's destination is confined exactly when the target is harmless, if the host that the
target is parsed to is an ordinary name. -/
theorem confined_iff_harmless (parse : Str → Except Str ParsedUrl) (debug : Str → Str)
    (aws : AwsEnv) (input : Str) (scapUser : Option Str) (completeUser bare : Bool) (repo : Repo)
    (hhost : ∀ parsed host, parse (normalizeToParseable input).value = .ok parsed →
      parsed.host = some host → Ordinary host)
    (huser : ∀ user, scapUser = some user → Ordinary user)
    (h : fromInput parse debug aws input scapUser completeUser = .ok repo) :
    repo.Confined bare ↔ Harmless parse aws input completeUser bare := by
  unfold Harmless
  obtain ⟨-, -, ⟨codecommit, hcodecommit, h⟩ | ⟨hcodecommit, hkind, h⟩ |
    ⟨hcodecommit, hkind, parsed, hparsed, h⟩⟩ := fromInput_cases h <;> rw [hcodecommit]
  · exact confined_codecommit_iff hcodecommit h bare
  · simp only
    rw [if_pos hkind]
    exact confined_fromBare_iff huser h bare
  · simp only
    rw [if_neg hkind, confined_fromParsed_iff (hhost _ · hparsed) h bare, hparsed]
    simp

/-- A target. -/
def sampleTarget : Str := "https://GitHub.com/foo/bar.git".toList

/-- What the target is parsed to. -/
def sampleParsed : ParsedUrl := ⟨.https, none, some "GitHub.com".toList, "/foo/bar.git".toList⟩

/-- A parser that knows one URL. -/
def sampleParse (value : Str) : Except Str ParsedUrl :=
  if value = sampleTarget then .ok sampleParsed else .error "missing host".toList

/-- What the target becomes. -/
def sampleRepo : Repo where
  host := "github.com".toList
  owner := "foo".toList
  name := "bar".toList
  vcsHint := none
  httpsUrl := "https://github.com/foo/bar".toList
  sshUrl := "ssh://git@github.com/foo/bar".toList
  originalInput := sampleTarget

/-- The parser of the sample knows one URL. -/
lemma sampleParse_eq_ok {value : Str} {parsed : ParsedUrl} (h : sampleParse value = .ok parsed) :
    parsed = sampleParsed := by
  unfold sampleParse at h
  split at h
  · injection h with h
    exact h.symm
  · cases h

/-- The repository of the sample is confined to its root. -/
theorem confined_iff_harmless_sample : sampleRepo.Confined false := by
  refine (confined_iff_harmless sampleParse id ⟨none, none, none⟩ sampleTarget
    (some "me".toList) true
    false sampleRepo ?_ ?_ (by decide +kernel)).mpr ?_
  · intro parsed host hparse hhost
    rw [sampleParse_eq_ok hparse] at hhost
    injection hhost with hhost
    subst hhost
    decide
  · rintro user h
    injection h with h
    subst h
    decide
  · rw [harmless_url_iff (by decide) (by decide)]
    intro parsed hparse
    rw [sampleParse_eq_ok hparse]
    decide

/-- Not every destination is confined: the bare name `...git` passes the check for `..`, and becomes
the repository `..` of the owner `..` once `.git` is removed. -/
theorem not_always_confined :
    ¬∀ (parse : Str → Except Str ParsedUrl) (debug : Str → Str) (aws : AwsEnv) (input : Str)
      (scapUser : Option Str) (completeUser bare : Bool) (repo : Repo),
      (∀ value parsed host, parse value = .ok parsed → parsed.host = some host → Ordinary host) →
      (∀ user, scapUser = some user → Ordinary user) →
      fromInput parse debug aws input scapUser completeUser = .ok repo → repo.Confined bare := by
  intro hconfined
  let repo := buildGithubRepo "...git".toList "..".toList "..".toList
  have h := hconfined (fun _ => .error []) id ⟨none, none, none⟩ "...git".toList none false false
    repo (fun _ _ _ hparse => nomatch hparse) (fun _ huser => nomatch huser) (by decide +kernel)
  obtain ⟨rest, hrest, -⟩ := h.below "/home/me/src".toList
  have hparent : lexical (destPath "/home/me/src".toList repo false) =
      ["home".toList, "me".toList] := by
    decide +kernel
  have hroot : (lexical "/home/me/src".toList).length = 3 := by decide +kernel
  have hlength := congrArg List.length (hparent.symm.trans hrest)
  rw [List.length_append, hroot] at hlength
  have htwo : ["home".toList, "me".toList].length = 2 := rfl
  omega

end Scap
