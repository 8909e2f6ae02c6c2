import Scap.Index.RoundTrip

/-!
# Decoding does not panic

`decode` once more, with a reader that may stand anywhere and with every operation that can panic
doing so (`src/index.rs`, `decode`, `Reader`, `is_safe_rel`): an index out of bounds, a subtraction
below zero, a vector of more than `isize::MAX` bytes.  `decodeChecked_eq` says that no file reaches
a panic, and that the result is that of `Index.decode`, whose cursor cannot pass the end.
-/

namespace Scap

open Cursor

/-! ## Operations that can panic -/

/-- Why an operation panics. -/
inductive Fault where
  | indexOutOfBounds
  | subtractWithOverflow
  | capacityOverflow
deriving Repr, DecidableEq

/-- A cursor over the encoded form, at any position. -/
structure RawReader where
  bytes : Bytes
  at_ : ℕ
deriving Repr, DecidableEq

/-- A computation on a reader that may panic, or return `None`. -/
def Checked (α : Type) : Type := RawReader → Except Fault (Option (α × RawReader))

namespace Checked

variable {α β σ : Type}

/-- `?` and the end of a block. -/
instance : Monad Checked where
  pure a := fun reader => .ok (some (a, reader))
  bind m f := fun reader =>
    match m reader with
    | .error fault => .error fault
    | .ok none => .ok none
    | .ok (some (a, reader)) => f a reader

/-- `return None`. -/
def reject : Checked α := fun _ => .ok none

/-- A panic. -/
def panics (fault : Fault) : Checked α := fun _ => .error fault

/-- `xs[i]`. -/
def getIndex (xs : List α) (i : ℕ) : Checked α :=
  match xs[i]? with
  | some x => pure x
  | none => panics .indexOutOfBounds

/-- `xs[i] = x`. -/
def setIndex (xs : List α) (i : ℕ) (x : α) : Checked (List α) :=
  if i < xs.length then pure (xs.set i x) else panics .indexOutOfBounds

/-- `Vec::with_capacity`, for items of `size` bytes. -/
def withCapacity (n size : ℕ) : Checked Unit :=
  if n * size < 2 ^ 63 then pure () else panics .capacityOverflow

/-- `self.bytes.len() - self.at`. -/
def remaining : Checked ℕ := fun reader =>
  if reader.at_ ≤ reader.bytes.length then .ok (some (reader.bytes.length - reader.at_, reader))
  else .error .subtractWithOverflow

/-- `self.at`. -/
def position : Checked ℕ := fun reader => .ok (some (reader.at_, reader))

/-! ## The reader -/

/-- `Reader::take`. -/
def take (n : ℕ) : Checked Bytes := fun reader =>
  if reader.at_ + n ≤ reader.bytes.length then
    .ok (some ((reader.bytes.drop reader.at_).take n, { reader with at_ := reader.at_ + n }))
  else .ok none

/-- `Reader::u8`. -/
def u8 : Checked UInt8 := do
  let bytes ← take 1
  getIndex bytes 0

/-- `Reader::u32`. -/
def u32 : Checked UInt32 := do
  let bytes ← take 4
  pure (UInt32.ofNat (leNat bytes))

/-- `Reader::u64`. -/
def u64 : Checked UInt64 := do
  let bytes ← take 8
  pure (UInt64.ofNat (leNat bytes))

/-- `Reader::i64`. -/
def i64 : Checked Int64 := do
  let x ← u64
  pure x.toInt64

/-- `Reader::bytes`. -/
def bytes : Checked Bytes := do
  let len ← u32
  take len.toNat

/-- `Reader::count`. -/
def count (each : ℕ) : Checked ℕ := do
  let n ← u32
  let left ← remaining
  if n.toNat * each ≤ left then pure n.toNat else reject

/-! ## The decoder -/

/-- `is_safe_rel`, which looks at the first byte. -/
def isSafeRel (rel : Bytes) : Checked Bool :=
  if rel.isEmpty then pure true
  else do
    let first ← getIndex rel 0
    if first = slash || rel.contains 0 then pure false
    else pure ((rel.splitOn slash).all fun part =>
      !(part = [] || part = [0x2e] || part = [0x2e, 0x2e]))

/-- A loop of `n` turns that collects what each turn yields. -/
def many (turn : σ → Checked (β × σ)) : ℕ → σ → Checked (List β × σ)
  | 0, s => pure ([], s)
  | n + 1, s => do
    let (v, s) ← turn s
    let (vs, s) ← many turn n s
    pure (v :: vs, s)

/-- One turn of the child loop. -/
def readChild (total i : ℕ) (parents : List Bool) : Checked (UInt32 × List Bool) := do
  let child ← u32
  if child.toNat ≤ i ∨ total ≤ child.toNat then reject
  else do
    let claimed ← getIndex parents child.toNat
    if claimed then reject
    else do
      let parents ← setIndex parents child.toNat true
      pure (child, parents)

/-- One turn of the entry loop. -/
def readEntry (total : ℕ) : ℕ × List Bool → Checked (Entry × (ℕ × List Bool))
  | (i, parents) => do
    let kind ← u8
    let rel ← bytes
    let safe ← isSafeRel rel
    if safe = false then reject
    else if kind = 0 then pure (⟨rel, none, []⟩, (i + 1, parents))
    else if kind = 1 then do
      let mtime ← i64
      let n ← count 4
      withCapacity n 4
      let (children, parents) ← many (readChild total i) n parents
      pure (⟨rel, some mtime, children⟩, (i + 1, parents))
    else reject

/-- One turn of the loop over the exclusion patterns. -/
def readPattern (_ : Unit) : Checked (Bytes × Unit) := do
  let pattern ← bytes
  pure (pattern, ())

/-- `decode`, on a reader at the start of the file; the items of its vectors take 24, 64, 1 and 4
bytes. -/
def decode (file : Bytes) : Checked Index := do
  let magic ← take MAGIC.length
  if magic ≠ MAGIC then reject
  else do
    let version ← u32
    if version ≠ VERSION then reject
    else do
      let root ← bytes
      let dev ← u64
      let ino ← u64
      let writtenNs ← i64
      let excludeCount ← count 4
      withCapacity excludeCount 24
      let (exclude, _) ← many readPattern excludeCount ()
      let count ← count MIN_ENTRY_BYTES
      if 2 ^ 32 ≤ count then reject
      else do
        withCapacity count 64
        withCapacity count 1
        let (entries, (_, parents)) ←
          many (readEntry count) count (0, List.replicate count false)
        let at_ ← position
        if at_ ≠ file.length then reject
        else if entries.head?.all (fun first => !first.rel.isEmpty) ||
            (parents.drop 1).any (!·) then reject
        else pure ⟨root, dev, ino, writtenNs, exclude, entries⟩

end Checked

/-- `decode`: a panic, or what it returns. -/
def decodeChecked (bytes : Bytes) : Except Fault (Option Index) :=
  (Checked.decode bytes ⟨bytes, 0⟩).map fun result => result.map Prod.fst

/-! ## Agreement -/

/-- The raw form of a reader. -/
def Reader.raw (r : Reader) : RawReader := ⟨r.items, r.pos⟩

/-- The checked computation does not panic, and ends as the other one does. -/
def Agrees {α : Type} (result : Except Fault (Option (α × RawReader)))
    (expected : Option (α × Reader)) : Prop :=
  result = .ok (expected.map fun (a, r) => (a, r.raw))

section Rules

variable {α β σ : Type} {m : Checked α} {f : α → Checked β} {s : RawReader} {r : Reader}

/-- A computation is continued where it succeeds. -/
lemma bind_eq_match : (m >>= f) s =
    match m s with
    | .error fault => .error fault
    | .ok none => .ok none
    | .ok (some (a, reader)) => f a reader := rfl

/-- A first computation that returns hands on its result. -/
lemma bind_of_ok {a : α} {s' : RawReader} (h : m s = .ok (some (a, s'))) :
    (m >>= f) s = f a s' := by
  rw [bind_eq_match, h]

/-- A first computation that returns `None` ends the block. -/
lemma bind_of_none (h : m s = .ok none) : (m >>= f) s = .ok none := by
  rw [bind_eq_match, h]

/-- A block that returns a result is one whose computations all do. -/
lemma of_bind_eq {result : β × RawReader} (h : (m >>= f) s = .ok (some result)) :
    ∃ a s', m s = .ok (some (a, s')) ∧ f a s' = .ok (some result) := by
  rw [bind_eq_match] at h
  split at h
  · cases h
  · cases h
  · exact ⟨_, _, ‹_›, h⟩

/-- Two computations in turn, the second for the results the first one can have. -/
lemma Agrees.bind {x : Option (α × Reader)} {g : α × Reader → Option (β × Reader)}
    (hm : Agrees (m s) x) (hf : ∀ a r, x = some (a, r) → Agrees (f a r.raw) (g (a, r))) :
    Agrees ((m >>= f) s) (x >>= g) := by
  cases x with
  | none => exact bind_of_none hm
  | some result => exact (bind_of_ok hm).trans (hf result.1 result.2 rfl)

/-- What a checked decoder returns, without the reader. -/
abbrev returned (result : Except Fault (Option (α × RawReader))) : Except Fault (Option α) :=
  result.map fun result => result.map Prod.fst

/-- The first of two computations, when the second one ends the decoder. -/
lemma Agrees.bind_returned {x : Option (α × Reader)} {g : α × Reader → Option β}
    (hm : Agrees (m s) x)
    (hf : ∀ a r, x = some (a, r) → returned (f a r.raw) = .ok (g (a, r))) :
    returned ((m >>= f) s) = .ok (x >>= g) := by
  cases x with
  | none => rw [bind_of_none hm]; rfl
  | some result => rw [bind_of_ok hm]; exact hf result.1 result.2 rfl

/-- An index in bounds does not panic. -/
lemma getIndex_eq {xs : List α} {i : ℕ} {x : α} (h : xs[i]? = some x) :
    Checked.getIndex xs i s = .ok (some (x, s)) := by
  rw [Checked.getIndex, h]
  rfl

/-- Setting an element within bounds does not panic. -/
lemma setIndex_eq {xs : List α} {i : ℕ} {x : α} (h : i < xs.length) :
    Checked.setIndex xs i x s = .ok (some (xs.set i x, s)) := by
  rw [Checked.setIndex, if_pos h]
  rfl

/-- As many items as a `u32` counts do not overflow a vector. -/
lemma withCapacity_eq {n size : ℕ} (hn : n < 2 ^ 32) (hsize : size ≤ 64) :
    Checked.withCapacity n size s = .ok (some ((), s)) := by
  have hle : n * size ≤ 2 ^ 32 * 64 := Nat.mul_le_mul hn.le hsize
  rw [Checked.withCapacity, if_pos (by omega)]
  rfl

/-- The cursor is never past the end. -/
lemma remaining_eq : Checked.remaining r.raw = .ok (some (r.items.length - r.pos, r.raw)) :=
  if_pos r.pos_le

/-- A loop agrees when its turns do, as long as the state keeps what the turns rely on. -/
lemma agrees_many {turn : σ → Checked (β × σ)} {p : σ → Reader → Option ((β × σ) × Reader)}
    (Keeps : σ → Prop) (hturn : ∀ s r, Keeps s → Agrees (turn s r.raw) (p s r))
    (hkeeps : ∀ s r v s' r', Keeps s → p s r = some ((v, s'), r') → Keeps s') (n : ℕ) (s : σ)
    (r : Reader) (h : Keeps s) : Agrees (Checked.many turn n s r.raw) (Cursor.many p n s r) := by
  induction n generalizing s r with
  | zero => rfl
  | succ n ih =>
    refine (hturn s r h).bind fun (v, s') r' hp => ?_
    exact (ih s' r' (hkeeps s r v s' r' h hp)).bind fun (vs, s'') r'' _ => rfl

end Rules

/-! ## The accessors agree -/

section Accessors

variable (r : Reader)

/-- Taking bytes does not panic. -/
lemma take_agrees (n : ℕ) : Agrees (Checked.take n r.raw) (r.take n) := by
  unfold Checked.take Cursor.take Reader.raw
  simp only
  split <;> rfl

/-- Reading a byte does not panic. -/
lemma u8_agrees : Agrees (Checked.u8 r.raw) (Reader.u8 r) := by
  refine (take_agrees r 1).bind fun bytes r' h => ?_
  obtain ⟨hlen, -⟩ := take_eq_some_iff.mp h
  obtain ⟨b, rfl⟩ := List.length_eq_one_iff.mp hlen
  rfl

/-- Reading a `u32` does not panic. -/
lemma u32_agrees : Agrees (Checked.u32 r.raw) (Reader.u32 r) :=
  (take_agrees r 4).bind fun _ _ _ => rfl

/-- Reading a `u64` does not panic. -/
lemma u64_agrees : Agrees (Checked.u64 r.raw) (Reader.u64 r) :=
  (take_agrees r 8).bind fun _ _ _ => rfl

/-- Reading an `i64` does not panic. -/
lemma i64_agrees : Agrees (Checked.i64 r.raw) (Reader.i64 r) :=
  (u64_agrees r).bind fun _ _ _ => rfl

/-- Reading a string of bytes does not panic. -/
lemma bytes_agrees : Agrees (Checked.bytes r.raw) (Reader.bytes r) :=
  (u32_agrees r).bind fun len r' _ => take_agrees r' len.toNat

/-- Reading a count does not panic. -/
lemma count_agrees (each : ℕ) : Agrees (Checked.count each r.raw) (Reader.count r each) := by
  refine (u32_agrees r).bind fun n r' _ => ?_
  rw [bind_of_ok remaining_eq]
  simp only
  split <;> rfl

/-- A count fits a `u32`. -/
lemma count_lt {each n : ℕ} {r' : Reader} (h : Reader.count r each = some (n, r')) :
    n < 2 ^ 32 := by
  obtain ⟨⟨k, r₁⟩, -, h⟩ := Option.bind_eq_some_iff.mp h
  simp only at h
  split at h
  · cases h
    exact k.toNat_lt
  · cases h

/-- The cursor does not pass the end. -/
lemma take_within {n : ℕ} {s s' : RawReader} {taken : Bytes}
    (h : Checked.take n s = .ok (some (taken, s'))) : s'.at_ ≤ s'.bytes.length := by
  unfold Checked.take at h
  split at h
  · cases h
    assumption
  · cases h

/-- The bytes that are left could hold as many items as were counted. -/
lemma count_within {each n : ℕ} {s s' : RawReader}
    (h : Checked.count each s = .ok (some (n, s'))) :
    s'.at_ ≤ s'.bytes.length ∧ n * each ≤ s'.bytes.length - s'.at_ := by
  obtain ⟨k, s₁, -, h⟩ := of_bind_eq h
  obtain ⟨left, s₂, hleft, h⟩ := of_bind_eq h
  unfold Checked.remaining at hleft
  split at hleft
  · cases hleft
    split at h
    · cases h
      exact ⟨by assumption, by assumption⟩
    · cases h
  · cases hleft

end Accessors

/-! ## The loops agree -/

/-- Looking at a path does not panic. -/
lemma isSafeRel_eq (rel : Bytes) (s : RawReader) :
    Checked.isSafeRel rel s = .ok (some (isSafeRel rel, s)) := by
  unfold Checked.isSafeRel isSafeRel
  cases rel with
  | nil => rfl
  | cons b rel =>
    have hget : (b :: rel)[0]? = some b := rfl
    rw [if_neg (by simp), if_neg (by simp), bind_of_ok (getIndex_eq hget), List.head?_cons]
    simp only [Option.some.injEq]
    split <;> rfl

/-- Reading a child index does not panic. -/
lemma readChild_agrees {total i : ℕ} {parents : List Bool} (h : parents.length = total)
    (r : Reader) :
    Agrees (Checked.readChild total i parents r.raw) (readChild total i parents r) := by
  refine (u32_agrees r).bind fun child r' _ => ?_
  simp only
  by_cases hrange : child.toNat ≤ i ∨ total ≤ child.toNat
  · rw [if_pos hrange, if_pos (by tauto)]
    rfl
  · obtain ⟨hlow, hhigh⟩ := not_or.mp hrange
    have hlt : child.toNat < parents.length := by omega
    rw [if_neg hrange, bind_of_ok (getIndex_eq (List.getElem?_eq_getElem hlt)),
      List.getD_eq_getElem _ _ hlt]
    cases hclaimed : parents[child.toNat] with
    | true =>
      rw [if_pos rfl, if_pos (by tauto)]
      rfl
    | false =>
      rw [if_neg Bool.false_ne_true, bind_of_ok (setIndex_eq hlt), if_neg (by simp [hlow, hhigh])]
      rfl

/-- Claiming keeps one flag for each entry. -/
lemma length_foldl_claim (children : List UInt32) (parents : List Bool) :
    (children.foldl claim parents).length = parents.length := by
  induction children generalizing parents with
  | nil => rfl
  | cons child children ih => rw [List.foldl_cons, ih, claim, List.length_set]

/-- Reading an entry does not panic. -/
lemma readEntry_agrees {total : ℕ} {st : ℕ × List Bool} (h : st.2.length = total) (r : Reader) :
    Agrees (Checked.readEntry total st r.raw) (readEntry total st r) := by
  obtain ⟨i, parents⟩ := st
  refine (u8_agrees r).bind fun kind r₁ _ => (bytes_agrees r₁).bind fun rel r₂ _ => ?_
  rw [bind_of_ok (isSafeRel_eq rel _)]
  simp only
  split
  · rfl
  · split
    · rfl
    · split
      · refine (i64_agrees r₂).bind fun mtime r₃ _ => (count_agrees r₃ 4).bind fun n r₄ hn => ?_
        rw [bind_of_ok (withCapacity_eq (count_lt r₃ hn) (by decide))]
        refine Agrees.bind (agrees_many (fun parents => parents.length = total)
          (fun parents r h => readChild_agrees h r) (fun parents r v s' r' h hread => ?_) n parents
          r₄ h) fun (children, parents) r₅ _ => rfl
        obtain ⟨⟨-, rfl⟩, -⟩ := (readChild_exact total i _ _ _ _ _).mp hread
        rw [claim, List.length_set, h]
      · rfl

/-- Reading a pattern does not panic. -/
lemma readPattern_agrees (r : Reader) : Agrees (Checked.readPattern () r.raw)
    ((Reader.bytes r).map fun (p, r) => ((p, ()), r)) := by
  have hmap : (Reader.bytes r).map (fun (p, r) => ((p, ()), r)) =
      (Reader.bytes r >>= fun (p, r) => some ((p, ()), r)) := by
    cases Reader.bytes r <;> rfl
  rw [hmap]
  exact (bytes_agrees r).bind fun _ _ _ => rfl

/-- **No file makes the decoder panic**, and it returns what `Index.decode` does. -/
lemma decodeChecked_eq (bytes : Bytes) : decodeChecked bytes = .ok (Index.decode bytes) := by
  unfold decodeChecked Index.decode
  refine (take_agrees (Cursor.start bytes) MAGIC.length).bind_returned fun magic r₁ _ => ?_
  simp only
  by_cases hmagic : magic = MAGIC
  case neg =>
    rw [if_pos hmagic]
    cases Reader.u32 r₁ with
    | none => rfl
    | some result => simp [hmagic]; rfl
  rw [if_neg (not_not.mpr hmagic)]
  refine (u32_agrees r₁).bind_returned fun version r₂ _ => ?_
  simp only
  by_cases hversion : version = VERSION
  case neg =>
    rw [if_pos hversion]
    simp [hversion]
    rfl
  have hguard : guard (f := Option) (magic = MAGIC ∧ version = VERSION) = some () :=
    if_pos ⟨hmagic, hversion⟩
  rw [if_neg (not_not.mpr hversion), hguard]
  refine (bytes_agrees r₂).bind_returned fun root r₃ _ => ?_
  refine (u64_agrees r₃).bind_returned fun dev r₄ _ => ?_
  refine (u64_agrees r₄).bind_returned fun ino r₅ _ => ?_
  refine (i64_agrees r₅).bind_returned fun writtenNs r₆ _ => ?_
  refine (count_agrees r₆ 4).bind_returned fun excludeCount r₇ hexclude => ?_
  rw [bind_of_ok (withCapacity_eq (count_lt r₆ hexclude) (by decide))]
  refine (agrees_many (fun _ => True) (fun _ r _ => readPattern_agrees r)
    (fun _ _ _ _ _ _ _ => trivial) excludeCount () r₇ trivial).bind_returned
    fun (exclude, _) r₈ _ => ?_
  refine (count_agrees r₈ MIN_ENTRY_BYTES).bind_returned fun count r₉ hcount => ?_
  have hlt := count_lt r₈ hcount
  simp only
  rw [if_neg (Nat.not_le.mpr hlt), bind_of_ok (withCapacity_eq hlt (by decide)),
    bind_of_ok (withCapacity_eq hlt (by decide))]
  refine (agrees_many (fun st => st.2.length = count) (fun st r h => readEntry_agrees h r)
    (fun st r entry st' r' h hread => ?_) count (0, List.replicate count false) r₉
    List.length_replicate).bind_returned fun (entries, (_, parents)) r₁₀ hmany => ?_
  · obtain ⟨⟨-, rfl⟩, -⟩ := (readEntry_exact count _ _ _ _ _).mp hread
    rw [nextEntry, length_foldl_claim, h]
  · have hposition : Checked.position r₁₀.raw = .ok (some (r₁₀.pos, r₁₀.raw)) := rfl
    rw [bind_of_ok hposition]
    simp only
    by_cases hend : r₁₀.pos = bytes.length
    · rw [if_neg (not_not.mpr hend),
        show guard (f := Option) (r₁₀.pos = bytes.length) = some () from if_pos hend]
      cases hshape : entries.head?.all (fun first => !first.rel.isEmpty) ||
        (parents.drop 1).any (!·) <;> rfl
    · rw [if_pos hend, show guard (f := Option) (r₁₀.pos = bytes.length) = none from if_neg hend]
      rfl

end Scap
