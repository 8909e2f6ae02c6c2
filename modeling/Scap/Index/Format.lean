import Scap.Basic
import Scap.Foundations.Cursor

/-!
# The index file

One root's index, its byte encoding and the decoder that validates while it parses (`src/index.rs`,
`encode`, `decode`, `Reader`, `push_bytes`, `push_len`, `is_safe_rel`).

The decoder interleaves parsing with three checks on the shape of the tree: forward edges only,
every edge in range, every entry claimed once.  `decode_eq_some_iff` describes it completely: a file
decodes to an index exactly when the index is well formed and the file is its encoding.
-/

namespace Scap

/-- One remembered directory or repository. -/
structure Entry where
  /-- Root-relative path; empty for the root itself. -/
  rel : Bytes
  /-- The directory mtime to validate against, or `none` for a repository. -/
  mtimeNs : Option Int64
  /-- Indices of this entry's children. -/
  children : List UInt32
deriving Repr, DecidableEq

/-- Whether the entry is a repository. -/
def Entry.isRepo (entry : Entry) : Bool := entry.mtimeNs.isNone

/-- One root's index, as it sits in the file. -/
structure Index where
  /-- The root path this index describes, as `list` spelled it. -/
  root : Bytes
  /-- The root's device when the index was written. -/
  dev : UInt64
  /-- The root's inode when the index was written. -/
  ino : UInt64
  /-- When the file was written, in nanoseconds since the Unix epoch. -/
  writtenNs : Int64
  /-- The exclusion patterns in force when the index was written. -/
  exclude : List Bytes
  /-- The entries; entry 0 is the root. -/
  entries : List Entry
deriving Repr, DecidableEq

/-! ## Encoding -/

/-- Magic prefix, `b"SCAPIDX\0"`. -/
def MAGIC : Bytes := ascii ['S', 'C', 'A', 'P', 'I', 'D', 'X'] ++ [0]

/-- Format version. -/
def VERSION : UInt32 := 1

/-- Smallest number of bytes one encoded entry can occupy: a kind byte and an empty path's length
prefix. -/
def MIN_ENTRY_BYTES : ℕ := 1 + 4

/-- `u32::to_le_bytes`. -/
def u32Bytes (x : UInt32) : Bytes := leBytes 4 x.toNat

/-- `u64::to_le_bytes`. -/
def u64Bytes (x : UInt64) : Bytes := leBytes 8 x.toNat

/-- `i64::to_le_bytes`: the two's complement bits. -/
def i64Bytes (x : Int64) : Bytes := u64Bytes x.toUInt64

/-- The bytes `push_len` appends: a `u32` length prefix, saturating rather than panicking. -/
def pushLen (len : ℕ) : Bytes := leBytes 4 (if len < 2 ^ 32 then len else 2 ^ 32 - 1)

/-- The bytes `push_bytes` appends. -/
def pushBytes (bytes : Bytes) : Bytes := pushLen bytes.length ++ bytes

/-- The bytes the loop of `encode` appends for one entry.  Repository entries carry neither a
timestamp nor a child list. -/
def Entry.encode (entry : Entry) : Bytes :=
  [if entry.mtimeNs.isSome then 1 else 0] ++ pushBytes entry.rel ++
    match entry.mtimeNs with
    | some mtime =>
      i64Bytes mtime ++ (pushLen entry.children.length ++ entry.children.flatMap u32Bytes)
    | none => []

/-- Serialises one index. -/
def Index.encode (index : Index) : Bytes :=
  MAGIC ++ (u32Bytes VERSION ++ (pushBytes index.root ++ (u64Bytes index.dev ++
    (u64Bytes index.ino ++ (i64Bytes index.writtenNs ++
      ((pushLen index.exclude.length ++ index.exclude.flatMap pushBytes) ++
        (pushLen index.entries.length ++ index.entries.flatMap Entry.encode)))))))

/-! ## Decoding -/

/-- A bounds-checked cursor over the encoded form. -/
abbrev Reader := Cursor UInt8

namespace Reader

/-- One byte. -/
def u8 (r : Reader) : Option (UInt8 × Reader) := do
  let (bytes, r) ← r.take 1
  some (← bytes.head?, r)

/-- A little-endian `u32`. -/
def u32 (r : Reader) : Option (UInt32 × Reader) := do
  let (bytes, r) ← r.take 4
  some (UInt32.ofNat (leNat bytes), r)

/-- A little-endian `u64`. -/
def u64 (r : Reader) : Option (UInt64 × Reader) := do
  let (bytes, r) ← r.take 8
  some (UInt64.ofNat (leNat bytes), r)

/-- A little-endian `i64`. -/
def i64 (r : Reader) : Option (Int64 × Reader) := do
  let (x, r) ← u64 r
  some (x.toInt64, r)

/-- A length-prefixed byte string. -/
def bytes (r : Reader) : Option (Bytes × Reader) := do
  let (len, r) ← u32 r
  r.take len.toNat

/-- A length prefix, rejected when the remaining bytes could not hold that many items of `each`
bytes. -/
def count (r : Reader) (each : ℕ) : Option (ℕ × Reader) := do
  let (n, r) ← u32 r
  if n.toNat * each ≤ r.items.length - r.pos then some (n.toNat, r) else none

end Reader

/-- Whether a decoded path is one the validation pass may hand to `statat` against the root
descriptor: relative, without a NUL, and without an empty, `.` or `..` component. -/
def isSafeRel (rel : Bytes) : Bool :=
  if rel.isEmpty then true
  else if rel.head? = some slash || rel.contains 0 then false
  else (rel.splitOn slash).all fun part => !(part = [] || part = [0x2e] || part = [0x2e, 0x2e])

/-- One turn of `decode`'s child loop in entry `i`: the edge must go forward, stay in range and
claim an entry nothing has claimed before. -/
def readChild (total i : ℕ) (parents : List Bool) (r : Reader) :
    Option ((UInt32 × List Bool) × Reader) := do
  let (child, r) ← Reader.u32 r
  if child.toNat ≤ i ∨ total ≤ child.toNat ∨ parents.getD child.toNat false = true then none
  else some ((child, parents.set child.toNat true), r)

/-- One turn of `decode`'s entry loop; the state is the loop index and the claimed entries. -/
def readEntry (total : ℕ) : ℕ × List Bool → Reader → Option ((Entry × (ℕ × List Bool)) × Reader)
  | (i, parents), r => do
    let (kind, r) ← Reader.u8 r
    let (rel, r) ← Reader.bytes r
    if isSafeRel rel = false then none
    else if kind = 0 then some ((⟨rel, none, []⟩, (i + 1, parents)), r)
    else if kind = 1 then do
      let (mtime, r) ← Reader.i64 r
      let (n, r) ← Reader.count r 4
      let ((children, parents), r) ← Cursor.many (readChild total i) n parents r
      some ((⟨rel, some mtime, children⟩, (i + 1, parents)), r)
    else none

/-- Parses one index file, or `none` for anything that is not exactly one. -/
def Index.decode (bytes : Bytes) : Option Index := do
  let (magic, r) ← (Cursor.start bytes).take MAGIC.length
  let (version, r) ← Reader.u32 r
  guard (magic = MAGIC ∧ version = VERSION)
  let (root, r) ← Reader.bytes r
  let (dev, r) ← Reader.u64 r
  let (ino, r) ← Reader.u64 r
  let (writtenNs, r) ← Reader.i64 r
  let (excludeCount, r) ← Reader.count r 4
  let ((exclude, _), r) ← Cursor.many
    (fun (_ : Unit) r => (Reader.bytes r).map fun (p, r) => ((p, ()), r)) excludeCount () r
  let (count, r) ← Reader.count r MIN_ENTRY_BYTES
  let ((entries, (_, parents)), r) ←
    Cursor.many (readEntry count) count (0, List.replicate count false) r
  guard (r.pos = bytes.length)
  guard (!(entries.head?.all (fun first => !first.rel.isEmpty) || (parents.drop 1).any (!·)))
  some ⟨root, dev, ino, writtenNs, exclude, entries⟩

end Scap
