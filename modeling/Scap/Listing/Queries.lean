import Scap.Listing.Command

/-!
# Lines as queries

What `list` prints can be given to it again as a query (`filter_repos` in `src/cmd/list.rs`).  An
exact query selects the paths that end in it, and so at least the line it was copied from.  Any
other query is looked for after the first component of a path: a line that begins with a host is
found again, since the host is compared and cut off, and no other line is.
-/

namespace Scap.Listing

/-- `str::to_lowercase` does to ASCII what `str::to_ascii_lowercase` does, and what it leaves as it
is does not end in anything it would change. -/
structure Lowercases (toLowercase : Str → Str) : Prop where
  ascii : ∀ s, s.all (·.toNat < 128) → toLowercase s = toAsciiLowercase s
  part : ∀ s t, toLowercase (s ++ t) = s ++ t → toLowercase t = t

/-- Whether a query selects a line; of a repository it looks at nothing else. -/
def selects (toLowercase : Str → Str) (query : Str) (line : Bytes) : Bool :=
  matchesQuery toLowercase query ⟨line, line, true⟩

/-- A host and something else, separated. -/
def NamesHost (query : Str) : Prop :=
  ∃ host rest, query = host ++ '/' :: rest ∧ '/' ∉ host ∧ looksLikeAuthority host = true

section

variable {toLowercase : Str → Str}

/-- An ASCII character that is in lower case is one as a byte. -/
lemma asciiLowercase_toBytes {c : Char} (hascii : c.toNat < 128) (h : c.toLower = c) :
    (toBytes [c]).map asciiLowercase = toBytes [c] := by
  have hall : ∀ n < 128, (Char.ofNat n).toLower = Char.ofNat n →
      (toBytes [Char.ofNat n]).map asciiLowercase = toBytes [Char.ofNat n] := by decide
  rw [← Char.ofNat_toNat c] at h ⊢
  exact hall _ hascii h

/-- What is lowercase stays as it is. -/
lemma lowercase_toBytes (hlower : Lowercases toLowercase) {t : Str} (h : toLowercase t = t) :
    lowercase toLowercase (toBytes t) = toBytes t := by
  unfold lowercase
  rw [fromUtf8_toBytes]
  by_cases hascii : t.all (·.toNat < 128)
  · have hmap : t.map Char.toLower = t := (hlower.ascii t hascii).symm.trans h
    have hbytes : ∀ u : Str, (∀ c ∈ u, c.toNat < 128 ∧ c.toLower = c) →
        (toBytes u).map asciiLowercase = toBytes u := by
      intro u hu
      induction u with
      | nil => rfl
      | cons c u ih =>
        obtain ⟨⟨hc, hsame⟩, hu⟩ := List.forall_mem_cons.mp hu
        rw [← List.singleton_append, toBytes_append, List.map_append, ih hu,
          asciiLowercase_toBytes hc hsame]
    have hsame : ∀ c ∈ t, c.toLower = c := by
      simpa using List.map_eq_map_iff.mp (hmap.trans (List.map_id t).symm)
    simp only [hascii, if_true]
    exact hbytes t fun c hc => ⟨by simpa using List.all_eq_true.mp hascii c hc, hsame c hc⟩
  · simp only [hascii, Bool.false_eq_true, if_false, h]

/-- A path splits off its host. -/
lemma splitFirst_toBytes {host : Str} (hhost : '/' ∉ host) (rest : Str) :
    splitFirst slash (toBytes (host ++ '/' :: rest)) = some (toBytes host, toBytes rest) := by
  have hslash : slash ∉ toBytes host := by
    rwa [mem_toBytes_iff (by decide) (by decide : toBytes ['/'] = [slash])]
  rw [toBytes_append, ← List.singleton_append, toBytes_append]
  exact splitFirst_append hslash _

/-- The host of a path is its first component. -/
lemma hostComponent_toBytes {host : Str} (hhost : '/' ∉ host) (rest : Str) :
    hostComponent (toBytes (host ++ '/' :: rest)) = toBytes host := by
  rw [hostComponent, splitFirst_toBytes hhost rest]

/-- Without its host a path is the rest. -/
lemma nonHostPath_toBytes {host : Str} (hhost : '/' ∉ host) (rest : Str) :
    nonHostPath (toBytes (host ++ '/' :: rest)) = toBytes rest := by
  rw [nonHostPath, splitFirst_toBytes hhost rest]

/-- What is left of the query occurs in the path after its first component, which is the host of the
query if that has one. -/
lemma matchesQuery_iff {query : Str} {r : Repo} : matchesQuery toLowercase query r = true ↔
    (∀ host, (splitAuthorityPrefix query).1 = some host → hostComponent r.rel = toBytes host) ∧
      toBytes (splitAuthorityPrefix query).2 <:+:
        if (splitAuthorityPrefix query).2 = toLowercase (splitAuthorityPrefix query).2 then
          lowercase toLowercase (nonHostPath r.rel)
        else nonHostPath r.rel := by
  unfold matchesQuery
  generalize splitAuthorityPrefix query = parts
  obtain ⟨host, q⟩ := parts
  by_cases hcase : q = toLowercase q
  · cases host <;> simp [← hcase]
  · cases host <;> simp [hcase]

/-- A query that begins with a host splits it off. -/
lemma splitAuthorityPrefix_of_namesHost {host : Str} (hhost : '/' ∉ host)
    (hlooks : looksLikeAuthority host = true) (rest : Str) :
    splitAuthorityPrefix (host ++ '/' :: rest) = (some host, rest) := by
  simp only [splitAuthorityPrefix, splitFirst_append hhost, hlooks, if_true]

/-- A query that begins with no host is taken whole. -/
lemma splitAuthorityPrefix_of_not_namesHost {query : Str} (h : ¬NamesHost query) :
    splitAuthorityPrefix query = (none, query) := by
  unfold splitAuthorityPrefix
  cases hsplit : splitFirst '/' query with
  | none => rfl
  | some parts =>
    obtain ⟨host, rest⟩ := parts
    obtain ⟨rfl, hhost⟩ := splitFirst_eq_some_iff.mp hsplit
    have hlooks : ¬looksLikeAuthority host = true := fun hlooks =>
      h ⟨host, rest, rfl, hhost, hlooks⟩
    simp only [hlooks, Bool.false_eq_true, if_false]

/-- What follows the first component of a line is shorter than the line, in lowercase too. -/
lemma length_nonHostPath_lt (hlower : Lowercases toLowercase) {query : Str} (hne : query ≠ []) :
    (nonHostPath (toBytes query)).length < (toBytes query).length ∧
      (toLowercase query = query →
        (lowercase toLowercase (nonHostPath (toBytes query))).length < (toBytes query).length) := by
  by_cases hslash : '/' ∈ query
  · obtain ⟨host, rest, rfl, hhost⟩ := List.eq_append_cons_of_mem hslash
    have hlt : (toBytes rest).length < (toBytes (host ++ '/' :: rest)).length := by
      have hone : (toBytes ['/']).length = 1 := by decide
      rw [toBytes_append, ← List.singleton_append, toBytes_append, List.length_append,
        List.length_append]
      omega
    rw [nonHostPath_toBytes hhost]
    refine ⟨hlt, fun hcase => ?_⟩
    have hrest : toLowercase rest = rest := by
      refine hlower.part (host ++ ['/']) rest ?_
      rw [List.append_assoc]
      exact hcase
    rwa [lowercase_toBytes hlower hrest]
  · have hnone : nonHostPath (toBytes query) = [] := by
      have hmem : slash ∉ toBytes query := by
        rwa [mem_toBytes_iff (by decide) (by decide : toBytes ['/'] = [slash])]
      rw [nonHostPath, splitFirst_of_not_mem hmem]
    have hpos : 0 < (toBytes query).length :=
      List.length_pos_iff.mpr fun h => hne (toBytes_injective h)
    rw [hnone]
    refine ⟨hpos, fun _ => ?_⟩
    rwa [← toBytes_nil, lowercase_toBytes hlower (hlower.ascii [] rfl)]

/-- A line is selected by itself exactly if it begins with a host. -/
lemma selects_self_iff (hlower : Lowercases toLowercase) {query : Str} (hne : query ≠ []) :
    selects toLowercase query (toBytes query) = true ↔ NamesHost query := by
  rw [selects, matchesQuery_iff]
  constructor
  · rintro ⟨-, hinfix⟩
    by_contra hnot
    rw [splitAuthorityPrefix_of_not_namesHost hnot] at hinfix
    obtain ⟨hlt, hlt'⟩ := length_nonHostPath_lt hlower hne
    have hle := hinfix.length_le
    split_ifs at hle with hcase
    · exact hle.not_gt (hlt' hcase.symm)
    · exact hle.not_gt hlt
  · rintro ⟨host, rest, rfl, hhost, hlooks⟩
    rw [splitAuthorityPrefix_of_namesHost hhost hlooks, hostComponent_toBytes hhost,
      nonHostPath_toBytes hhost]
    refine ⟨fun _ heq => congrArg toBytes (Option.some.inj heq), ?_⟩
    dsimp only
    split_ifs with hcase
    · rw [lowercase_toBytes hlower hcase.symm]
    · exact List.infix_rfl

end

/-! ## Runs with a query -/

/-- The lines of a run with a query, if it prints relative paths, are lines of the run without. -/
lemma formatLines_filterRepos (toLowercase : Str → Str) (repos : List Repo) {args : Args}
    (hfull : args.fullPath = false) (hunique : args.unique = false) {query : Str}
    (hquery : args.query = some query) :
    formatLines args (filterRepos toLowercase repos args.toListArgs) =
      (repos.map Repo.rel).filter fun line =>
        if args.exact then decide (IsTail (toBytes query) line)
        else selects toLowercase query line := by
  rw [formatLines, hfull, hunique, filterRepos, hquery]
  cases hexact : args.exact with
  | true =>
    have htail : (fun r : Repo => (subpaths r.rel).any fun p => p = toBytes query) =
        (fun line => decide (IsTail (toBytes query) line)) ∘ Repo.rel := by
      funext r
      rw [Bool.eq_iff_iff]
      simp [mem_subpaths_iff]
    simp [htail, List.filter_map]
  | false =>
    simp only [Bool.false_eq_true, if_false, List.filter_map]
    rfl

/-- No repository has an empty name. -/
lemma rel_ne_nil {roots : List Bytes} {abs : Bytes} {r : Repo} (h : named roots abs = some r) :
    r.rel ≠ [] := by
  obtain ⟨⟨i, cut⟩, -, rfl⟩ := Option.map_eq_some_iff.mp h
  dsimp only
  split_ifs with hempty
  · decide
  · exact mt List.isEmpty_iff.mpr hempty

/-- Lower-casing ASCII letters lower-cases. -/
lemma lowercases_toAsciiLowercase : Lowercases toAsciiLowercase where
  ascii _ _ := rfl
  part s t h := by
    rw [toAsciiLowercase, List.map_append] at h
    exact (List.append_inj h (List.length_map ..)).2

end Scap.Listing
