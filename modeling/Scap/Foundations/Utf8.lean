import Mathlib.Data.List.Basic
import Mathlib.Data.List.Induction
import Mathlib.Tactic.Common
import Scap.Foundations.Split

/-!
# UTF-8

Decoding of byte lists (`fromUtf8`), by the decoder of the core library, and its inverse
(`toBytes`).  Text before a byte list, and ASCII text after it, decodes on its own
(`fromUtf8_append_left`, `fromUtf8_append_right`), and a text cut at an ASCII character is its bytes
cut at that byte (`splitOn_toBytes`).
-/

/-- The bytes of a text. -/
def toBytes (s : List Char) : List UInt8 := s.flatMap String.utf8EncodeChar

/-- The text a byte list spells, if it is valid UTF-8. -/
def fromUtf8 (b : List UInt8) : Option (List Char) := b.toByteArray.utf8Decode?.map Array.toList

/-- An empty text has no bytes. -/
@[simp] lemma toBytes_nil : toBytes [] = [] := rfl

/-- Two texts are encoded one after the other. -/
@[simp] lemma toBytes_append (s t : List Char) : toBytes (s ++ t) = toBytes s ++ toBytes t :=
  List.flatMap_append

/-- Byte arrays of different lists are different. -/
lemma toByteArray_injective : Function.Injective (List.toByteArray) := by
  intro a b h
  have := congrArg (fun bytes : ByteArray => bytes.data.toList) h
  simpa only [List.toList_data_toByteArray] using this

/-- Bytes are decoded to the text they encode. -/
lemma fromUtf8_eq_some_iff {b : List UInt8} {s : List Char} :
    fromUtf8 b = some s ↔ toBytes s = b := by
  have hencode : (toBytes s).toByteArray = s.utf8Encode := rfl
  unfold fromUtf8
  constructor
  · intro h
    obtain ⟨a, ha, rfl⟩ := Option.map_eq_some_iff.mp h
    have hget := ByteArray.utf8Encode_get_utf8Decode? (b := b.toByteArray) (h := by rw [ha]; rfl)
    simp only [ha, Option.get_some] at hget
    exact toByteArray_injective (hencode.trans hget)
  · rintro rfl
    rw [hencode, List.utf8Decode?_utf8Encode]
    rfl

/-- An encoded text is decoded to itself. -/
@[simp] lemma fromUtf8_toBytes (s : List Char) : fromUtf8 (toBytes s) = some s :=
  fromUtf8_eq_some_iff.mpr rfl

/-- Text in front is decoded first. -/
lemma fromUtf8_append_left (s : List Char) (b : List UInt8) :
    fromUtf8 (toBytes s ++ b) = (fromUtf8 b).map (s ++ ·) := by
  induction s with
  | nil => simp
  | cons c s ih =>
    have hcons : (toBytes (c :: s) ++ b).toByteArray =
        [c].utf8Encode ++ (toBytes s ++ b).toByteArray := by
      rw [List.utf8Encode_singleton, ← List.toByteArray_append]
      simp [toBytes]
    have hstep : fromUtf8 (toBytes (c :: s) ++ b) = (fromUtf8 (toBytes s ++ b)).map (c :: ·) := by
      unfold fromUtf8
      rw [hcons, ByteArray.utf8Decode?_utf8Encode_singleton_append, Option.map_map, Option.map_map]
      exact Option.map_congr fun a _ => by simp
    rw [hstep, ih, Option.map_map]
    rfl

/-- A character with an ASCII byte is that byte. -/
lemma utf8EncodeChar_of_mem {c : Char} {x : UInt8} (hx : x < 0x80)
    (h : x ∈ String.utf8EncodeChar c) : String.utf8EncodeChar c = [x] := by
  have hhigh : ∀ v : ℕ, 0x80 ≤ v → v < 0x100 → x ≠ UInt8.ofNat v := by
    rintro v hlow hlt rfl
    rw [UInt8.lt_iff_toNat_lt, UInt8.toNat_ofNat', Nat.mod_eq_of_lt hlt] at hx
    exact absurd hx (Nat.not_lt.mpr hlow)
  unfold String.utf8EncodeChar at h ⊢
  dsimp only at h ⊢
  split_ifs at h ⊢
  · rw [List.mem_singleton] at h
    rw [h]
  all_goals
    refine absurd h ?_
    simp only [List.mem_cons, List.not_mem_nil, or_false, not_or]
    and_intros <;> exact hhigh _ (by omega) (by omega)

/-- ASCII text behind is decoded last. -/
lemma fromUtf8_append_right {s : List Char} (hs : ∀ c ∈ s, c.toNat < 0x80) (b : List UInt8) :
    fromUtf8 (b ++ toBytes s) = (fromUtf8 b).map (· ++ s) := by
  -- A text that ends in these bytes is a text and these characters.
  have hsplit : ∀ t, toBytes t = b ++ toBytes s → ∃ t', toBytes t' = b := by
    induction s using List.reverseRecOn with
    | nil => exact fun t ht => ⟨t, by simpa using ht⟩
    | append_singleton s c ih =>
      intro t ht
      obtain ⟨hs, hc⟩ := List.forall_mem_append.mp hs
      have hc : c.toNat < 0x80 := hc c (by simp)
      have hbyte : String.utf8EncodeChar c = [UInt8.ofNat c.val.toNat] :=
          if_pos (Nat.le_of_lt_succ hc)
      have hlt : UInt8.ofNat c.val.toNat < 0x80 := by
        rw [UInt8.lt_iff_toNat_lt, UInt8.toNat_ofNat', Nat.mod_eq_of_lt (by
          have : c.val.toNat < 128 := hc
          omega)]
        exact hc
      rw [toBytes_append, ← List.append_assoc, show toBytes [c] = [UInt8.ofNat c.val.toNat] by
        simp [toBytes, hbyte]] at ht
      obtain rfl | ⟨t, d, rfl⟩ := List.eq_nil_or_concat' t
      · simp at ht
      · have hd : toBytes [d] = String.utf8EncodeChar d := by simp [toBytes]
        have hlast : (String.utf8EncodeChar d).getLast? = some (UInt8.ofNat c.val.toNat) := by
          have := congrArg List.getLast? ht
          rw [toBytes_append, hd, List.getLast?_append, List.getLast?_append,
            List.getLast?_singleton, Option.some_or] at this
          cases hnil : (String.utf8EncodeChar d).getLast? with
          | none => exact absurd (List.getLast?_eq_none_iff.mp hnil) String.utf8EncodeChar_ne_nil
          | some x => simpa [hnil] using this
        rw [toBytes_append, hd, utf8EncodeChar_of_mem hlt (List.mem_of_getLast? hlast)] at ht
        exact ih hs t (List.append_cancel_right ht)
  cases hb : fromUtf8 b with
  | some t =>
    rw [← fromUtf8_eq_some_iff.mp hb, ← toBytes_append, fromUtf8_toBytes]
    rfl
  | none =>
    rw [Option.map_none, Option.eq_none_iff_forall_ne_some]
    intro t ht
    obtain ⟨t', ht'⟩ := hsplit t (fromUtf8_eq_some_iff.mp ht)
    rw [fromUtf8_eq_some_iff.mpr ht'] at hb
    cases hb

/-- Different texts have different bytes. -/
lemma toBytes_injective : Function.Injective toBytes := fun s t h =>
  Option.some.inj ((fromUtf8_toBytes s).symm.trans ((congrArg fromUtf8 h).trans
    (fromUtf8_toBytes t)))

/-- An ASCII byte stands only for its own character. -/
lemma mem_toBytes_iff {c : Char} {x : UInt8} (hx : x < 0x80) (hc : toBytes [c] = [x])
    {s : List Char} : x ∈ toBytes s ↔ c ∈ s := by
  have hc' : String.utf8EncodeChar c = [x] := by simpa [toBytes] using hc
  rw [toBytes, List.mem_flatMap]
  constructor
  · rintro ⟨d, hd, hmem⟩
    have hsame : toBytes [d] = toBytes [c] := by
      rw [hc]
      simpa [toBytes] using utf8EncodeChar_of_mem hx hmem
    obtain rfl : d = c := List.singleton_inj.mp (toBytes_injective hsame)
    exact hd
  · exact fun hmem => ⟨c, hmem, by simp [hc']⟩

/-- A text begins with an ASCII character where its bytes do. -/
lemma head?_toBytes_cons_iff {c : Char} {x : UInt8} (hx : x < 0x80) (hc : toBytes [c] = [x])
    {d : Char} {s : List Char} : (toBytes (d :: s)).head? = some x ↔ d = c := by
  have hcons : toBytes (d :: s) = toBytes [d] ++ toBytes s := toBytes_append [d] s
  constructor
  · intro h
    have hne : toBytes [d] ≠ [] := fun hnil =>
      absurd (toBytes_injective (hnil.trans toBytes_nil.symm)) (List.cons_ne_nil _ _)
    rw [hcons, List.head?_append_of_ne_nil _ hne] at h
    exact (List.mem_singleton.mp ((mem_toBytes_iff hx hc).mp (List.mem_of_mem_head? h))).symm
  · rintro rfl
    rw [hcons, hc]
    rfl

/-- Text falls into pieces at an ASCII character where its bytes do. -/
lemma splitOn_toBytes {c : Char} {x : UInt8} (hx : x < 0x80) (hc : toBytes [c] = [x])
    (s : List Char) : (toBytes s).splitOn x = (s.splitOn c).map toBytes := by
  induction hn : s.length using Nat.strong_induction_on generalizing s with
  | _ n ih =>
    rcases eq_last_or_append c s with hnot | ⟨a, last, rfl, hnot⟩
    · rw [List.splitOn_eq_singleton hnot,
        List.splitOn_eq_singleton (mt (mem_toBytes_iff hx hc).mp hnot), List.map_singleton]
    · have hbytes : toBytes (a ++ c :: last) = toBytes a ++ x :: toBytes last := by
        rw [toBytes_append, ← List.singleton_append, toBytes_append, hc, List.singleton_append]
      rw [hbytes, List.splitOn_append_cons_self, List.splitOn_append_cons_self, List.map_append,
        ih a.length (by simp [← hn]) a rfl, List.splitOn_eq_singleton hnot,
        List.splitOn_eq_singleton (mt (mem_toBytes_iff hx hc).mp hnot), List.map_singleton]

/-! ## Byte positions -/

/-- `str::len`. -/
def byteLen (s : List Char) : ℕ := (toBytes s).length

/-- `str::split_at`, where the position is the boundary of a character. -/
def splitAtByte? : List Char → ℕ → Option (List Char × List Char)
  | s, 0 => some ([], s)
  | [], _ + 1 => none
  | c :: s, n + 1 =>
    if c.utf8Size ≤ n + 1 then
      (splitAtByte? s (n + 1 - c.utf8Size)).map fun (a, b) => (c :: a, b)
    else none

/-- An empty text is no byte long. -/
@[simp] lemma byteLen_nil : byteLen [] = 0 := rfl

/-- A text is as long as its first character and the rest. -/
@[simp] lemma byteLen_cons (c : Char) (s : List Char) :
    byteLen (c :: s) = c.utf8Size + byteLen s := by
  simp [byteLen, toBytes]

/-- Only an empty text is no byte long. -/
lemma byteLen_eq_zero_iff {s : List Char} : byteLen s = 0 ↔ s = [] := by
  cases s with
  | nil => exact iff_of_true rfl rfl
  | cons c s =>
    rw [byteLen_cons]
    exact iff_of_false (by have := c.utf8Size_pos; omega) (List.cons_ne_nil _ _)

/-- The length of a first part is a boundary. -/
lemma splitAtByte?_append (s t : List Char) : splitAtByte? (s ++ t) (byteLen s) = some (s, t) := by
  induction s with
  | nil => cases t <;> rfl
  | cons c s ih =>
    obtain ⟨k, hk⟩ := Nat.exists_eq_add_of_lt c.utf8Size_pos
    have hlen : byteLen (c :: s) = (k + byteLen s) + 1 := by
      rw [byteLen_cons]
      omega
    have hrest : k + byteLen s + 1 - c.utf8Size = byteLen s := by omega
    rw [hlen, List.cons_append, splitAtByte?, if_pos (by omega), hrest, ih]
    rfl
