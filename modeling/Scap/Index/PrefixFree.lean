import Scap.Index.RoundTrip

/-!
# A torn index file is not an index file

The file carries no checksum: a file cut short, or one with bytes after its end, is refused because
the format is a prefix code (`src/index.rs`, `encode`, `decode`).  Every part of the encoding is
one, since an exact scanner reads it, and counting keeps it so; `Entry.encode_prefixCode` and
`Index.encode_prefixCode` put the parts together.
-/

namespace Scap

open Cursor

/-- The length prefixes of lengths that fit. -/
lemma pushLen_prefixCode : PrefixCode pushLen (· < 2 ^ 32) := by
  intro n m xs ys hn hm heq
  rw [pushLen_of_lt hn, pushLen_of_lt hm] at heq
  obtain ⟨hnm, hrest⟩ := Reader.u32_exact.prefixCode _ _ _ _ trivial trivial heq
  have hnat := congrArg UInt32.toNat hnm
  rw [UInt32.toNat_ofNat_of_lt' hn, UInt32.toNat_ofNat_of_lt' hm] at hnat
  exact ⟨hnat, hrest⟩

/-- The records of entries that fit: the kind byte tells repositories from directories. -/
lemma Entry.encode_prefixCode : PrefixCode Entry.encode Entry.Fits := by
  rintro ⟨rel, mtime, children⟩ ⟨rel', mtime', children'⟩ xs ys h h' heq
  cases mtime with
  | none =>
    obtain rfl : children = [] := h.repo_childless rfl
    cases mtime' with
    | none =>
      obtain rfl : children' = [] := h'.repo_childless rfl
      simp only [Entry.encode_repo, List.append_assoc, List.append_cancel_left_eq] at heq
      obtain ⟨rfl, hrest⟩ := Reader.bytes_exact.prefixCode _ _ _ _ h.rel_lt h'.rel_lt heq
      exact ⟨rfl, hrest⟩
    | some mtime' =>
      rw [Entry.encode_repo, Entry.encode_dir] at heq
      simp at heq
  | some mtime =>
    cases mtime' with
    | none =>
      rw [Entry.encode_repo, Entry.encode_dir] at heq
      simp at heq
    | some mtime' =>
      simp only [Entry.encode_dir, List.append_assoc, List.append_cancel_left_eq] at heq
      obtain ⟨rfl, h₁⟩ := Reader.bytes_exact.prefixCode _ _ _ _ h.rel_lt h'.rel_lt heq
      obtain ⟨rfl, h₂⟩ := Reader.i64_exact.prefixCode _ _ _ _ trivial trivial h₁
      rw [← List.append_assoc, ← List.append_assoc (pushLen children'.length)] at h₂
      obtain ⟨rfl, hrest⟩ := pushLen_prefixCode.counted Reader.u32_exact.prefixCode _ _ _ _
        ⟨h.children_lt, fun _ _ => trivial⟩ ⟨h'.children_lt, fun _ _ => trivial⟩ h₂
      exact ⟨rfl, hrest⟩

/-- The bytes before the entries: everything the file says about the root, and how many entries
follow. -/
def Index.header (index : Index) (count : ℕ) : Bytes :=
  MAGIC ++ (u32Bytes VERSION ++ (pushBytes index.root ++ (u64Bytes index.dev ++
    (u64Bytes index.ino ++ (i64Bytes index.writtenNs ++
      ((pushLen index.exclude.length ++ index.exclude.flatMap pushBytes) ++ pushLen count))))))

/-- An index is written as its header and its entries. -/
lemma Index.encode_eq_header (index : Index) :
    index.encode = index.header index.entries.length ++ index.entries.flatMap Entry.encode := by
  simp [Index.encode, Index.header]

/-- The lengths in front of the entries fit their prefixes. -/
structure Index.HeaderFits (index : Index) : Prop where
  /-- The root path's length fits its prefix. -/
  root_lt : index.root.length < 2 ^ 32
  /-- The number of exclusion patterns fits its prefix. -/
  exclude_lt : index.exclude.length < 2 ^ 32
  /-- Each pattern's length fits its prefix. -/
  pattern_lt : ∀ pattern ∈ index.exclude, pattern.length < 2 ^ 32

/-- The header of a well-formed index fits. -/
lemma Index.WellFormed.headerFits {index : Index} (h : index.WellFormed) : index.HeaderFits :=
  ⟨h.root_lt, h.exclude_lt, h.pattern_lt⟩

/-- Two headers with the same bytes, up to what follows, say the same. -/
lemma Index.header_append_inj {index index' : Index} {n m : ℕ} {xs ys : Bytes}
    (h : index.HeaderFits) (h' : index'.HeaderFits) (hn : n < 2 ^ 32) (hm : m < 2 ^ 32)
    (heq : index.header n ++ xs = index'.header m ++ ys) :
    { index with entries := [] } = { index' with entries := [] } ∧ n = m ∧ xs = ys := by
  obtain ⟨root, dev, ino, writtenNs, exclude, entries⟩ := index
  obtain ⟨root', dev', ino', writtenNs', exclude', entries'⟩ := index'
  simp only [Index.header, List.append_assoc, List.append_cancel_left_eq] at heq
  obtain ⟨rfl, h₁⟩ := Reader.bytes_exact.prefixCode _ _ _ _ h.root_lt h'.root_lt heq
  obtain ⟨rfl, h₂⟩ := Reader.u64_exact.prefixCode _ _ _ _ trivial trivial h₁
  obtain ⟨rfl, h₃⟩ := Reader.u64_exact.prefixCode _ _ _ _ trivial trivial h₂
  obtain ⟨rfl, h₄⟩ := Reader.i64_exact.prefixCode _ _ _ _ trivial trivial h₃
  rw [← List.append_assoc, ← List.append_assoc (pushLen exclude'.length)] at h₄
  obtain ⟨rfl, h₅⟩ := pushLen_prefixCode.counted Reader.bytes_exact.prefixCode _ _ _ _
    ⟨h.exclude_lt, h.pattern_lt⟩ ⟨h'.exclude_lt, h'.pattern_lt⟩ h₄
  obtain ⟨rfl, hrest⟩ := pushLen_prefixCode _ _ _ _ hn hm h₅
  exact ⟨rfl, rfl, hrest⟩

/-- The files of well-formed indexes are a prefix code. -/
lemma Index.encode_prefixCode : PrefixCode Index.encode Index.WellFormed := by
  intro index index' xs ys h h' heq
  simp only [Index.encode_eq_header, List.append_assoc] at heq
  obtain ⟨hfields, hlen, hrest⟩ :=
    header_append_inj h.headerFits h'.headerFits h.entries_lt h'.entries_lt heq
  obtain ⟨us, hentries, rfl⟩ :=
    Entry.encode_prefixCode.flatMap_prefix h.fits h'.fits hlen.le hrest
  obtain rfl : us = [] := by simpa [hentries] using hlen
  rw [List.append_nil] at hentries
  refine ⟨?_, rfl⟩
  obtain ⟨root', dev', ino', writtenNs', exclude', entries'⟩ := index'
  obtain rfl : index.entries = entries' := hentries.symm
  cases index
  cases hfields
  rfl

/-- **Torn and padded files are refused**: of a file that decodes, neither a proper prefix nor a
proper extension decodes. -/
theorem decode_prefix_free {bytes : Bytes} {index : Index}
    (h : Index.decode bytes = some index) :
    (∀ torn, torn <+: bytes → torn ≠ bytes → Index.decode torn = none) ∧
      ∀ padded, bytes <+: padded → padded ≠ bytes → Index.decode padded = none := by
  obtain ⟨hwf, rfl⟩ := Index.decode_eq_some_iff.mp h
  -- two files that both decode, one a prefix of the other, are the same file
  have hsame : ∀ {short long : Bytes} {i j : Index}, Index.decode short = some i →
      Index.decode long = some j → short <+: long → short = long := by
    rintro short long i j hi hj ⟨tail, hlong⟩
    obtain ⟨hiwf, rfl⟩ := Index.decode_eq_some_iff.mp hi
    obtain ⟨hjwf, rfl⟩ := Index.decode_eq_some_iff.mp hj
    obtain ⟨rfl, -⟩ := Index.encode_prefixCode i j tail [] hiwf hjwf (by simpa using hlong)
    rfl
  constructor
  · intro torn hpre hne
    cases hdecode : Index.decode torn with
    | none => rfl
    | some j => exact absurd (hsame hdecode h hpre) hne
  · intro padded hpre hne
    cases hdecode : Index.decode padded with
    | none => rfl
    | some j => exact absurd (hsame h hdecode hpre).symm hne

/-- No proper beginning of the sample's encoding is an index, and nothing that goes on after it. -/
theorem decode_prefix_free_sample :
    (∀ torn, torn <+: sampleIndex.encode → torn ≠ sampleIndex.encode →
      Index.decode torn = none) ∧
    ∀ padded, sampleIndex.encode <+: padded → padded ≠ sampleIndex.encode →
      Index.decode padded = none :=
  decode_prefix_free sampleIndex_wellFormed.decode_encode

end Scap
