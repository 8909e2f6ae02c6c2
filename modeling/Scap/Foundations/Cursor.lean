import Mathlib.Data.List.Basic
import Mathlib.Data.UInt
import Mathlib.Tactic.Common

/-!
# Bounds-checked scanning of a list

A `Cursor` is a position in a list that cannot pass the end: the bound is a field of the structure.
A *scanner* reads a value off a cursor and may refuse.  The file develops the one law by which
scanners are verified here, `Exact`: a scanner succeeds exactly when its input starts with the
encoding of an acceptable value.  The law is an equivalence, so it gives soundness and completeness
at once, and it composes: `many` iterates a scanner that threads a state through its items, and
`Exact.many` says the iteration is exact for the concatenated encodings.

The last section is the little-endian representation of naturals by a fixed number of bytes.
-/

/-- A position in a list, never past its end. -/
@[ext]
structure Cursor (α : Type*) where
  /-- The whole list being scanned. -/
  items : List α
  /-- The number of elements already read. -/
  pos : ℕ
  /-- The position stays inside the list. -/
  pos_le : pos ≤ items.length

namespace Cursor

variable {α β σ : Type*}

/-- The cursor at the beginning of a list. -/
def start (xs : List α) : Cursor α := ⟨xs, 0, Nat.zero_le _⟩

/-- The elements not yet read. -/
def rest (c : Cursor α) : List α := c.items.drop c.pos

/-- Read `n` elements, or refuse when fewer are left. -/
def take (c : Cursor α) (n : ℕ) : Option (List α × Cursor α) :=
  if h : c.pos + n ≤ c.items.length then
    some ((c.items.drop c.pos).take n, ⟨c.items, c.pos + n, h⟩)
  else none

/-- A cursor at the start has all items. -/
@[simp] lemma start_items (xs : List α) : (start xs).items = xs := rfl

/-- A cursor at the start has read nothing. -/
@[simp] lemma start_pos (xs : List α) : (start xs).pos = 0 := rfl

/-- A cursor at the start has everything to read. -/
@[simp] lemma rest_start (xs : List α) : (start xs).rest = xs := rfl

/-- The unread part has the length the position leaves. -/
lemma rest_length (c : Cursor α) : c.rest.length = c.items.length - c.pos := by
  simp [rest]

/-- Nothing is left exactly when the position is at the end. -/
lemma rest_eq_nil_iff (c : Cursor α) : c.rest = [] ↔ c.pos = c.items.length := by
  have := c.pos_le
  rw [rest, List.drop_eq_nil_iff]
  omega

/-! ## Consumption -/

/-- `c'` is the cursor `c` after reading the elements `chunk`. -/
def Consumes (c c' : Cursor α) (chunk : List α) : Prop :=
  c'.items = c.items ∧ c.rest = chunk ++ c'.rest

/-- Reading advances the position by the length of what was read. -/
lemma Consumes.pos_eq {c c' : Cursor α} {chunk : List α} (h : Consumes c c' chunk) :
    c'.pos = c.pos + chunk.length := by
  obtain ⟨hitems, hrest⟩ := h
  have hlen := congrArg List.length hrest
  rw [List.length_append, rest_length, rest_length, hitems] at hlen
  have h1 := c.pos_le
  have h2 := c'.pos_le
  rw [hitems] at h2
  omega

/-- A cursor is determined by where the reading started and what was read. -/
lemma Consumes.unique {c c₁ c₂ : Cursor α} {chunk : List α} (h₁ : Consumes c c₁ chunk)
    (h₂ : Consumes c c₂ chunk) : c₁ = c₂ :=
  Cursor.ext (h₁.1.trans h₂.1.symm) (h₁.pos_eq.trans h₂.pos_eq.symm)

/-- A cursor that has consumed nothing has stayed. -/
lemma consumes_nil_iff {c c' : Cursor α} : Consumes c c' [] ↔ c' = c := by
  constructor
  · intro h
    exact h.unique ⟨rfl, rfl⟩
  · rintro rfl
    exact ⟨rfl, rfl⟩

/-- Whatever the unread part starts with can be read. -/
lemma exists_consumes {c : Cursor α} {chunk q : List α} (h : c.rest = chunk ++ q) :
    ∃ c', Consumes c c' chunk ∧ c'.rest = q := by
  have hlen := congrArg List.length h
  rw [List.length_append, rest_length] at hlen
  have hpos := c.pos_le
  have hdrop : c.items.drop (c.pos + chunk.length) = q := by
    rw [← List.drop_drop, ← rest, h, List.drop_left]
  refine ⟨⟨c.items, c.pos + chunk.length, by omega⟩, ⟨rfl, ?_⟩, hdrop⟩
  rw [h]
  exact congrArg (chunk ++ ·) hdrop.symm

/-- Reading two chunks in turn reads their concatenation. -/
lemma consumes_append_iff {c c' : Cursor α} {xs ys : List α} :
    Consumes c c' (xs ++ ys) ↔ ∃ c₁, Consumes c c₁ xs ∧ Consumes c₁ c' ys := by
  constructor
  · rintro ⟨hitems, hrest⟩
    rw [List.append_assoc] at hrest
    obtain ⟨c₁, h₁, hrest₁⟩ := exists_consumes hrest
    exact ⟨c₁, h₁, hitems.trans h₁.1.symm, hrest₁⟩
  · rintro ⟨c₁, ⟨hi₁, hr₁⟩, hi₂, hr₂⟩
    exact ⟨hi₂.trans hi₁, by rw [hr₁, hr₂, List.append_assoc]⟩

/-- `take n` reads exactly the chunks of length `n`. -/
lemma take_eq_some_iff {c c' : Cursor α} {n : ℕ} {xs : List α} :
    c.take n = some (xs, c') ↔ xs.length = n ∧ Consumes c c' xs := by
  have hrest : ∀ (h : c.pos + n ≤ c.items.length),
      Consumes c ⟨c.items, c.pos + n, h⟩ (c.rest.take n) := by
    intro h
    refine ⟨rfl, ?_⟩
    rw [rest, rest, ← List.drop_drop, List.take_append_drop]
  have hlen : ∀ (_ : c.pos + n ≤ c.items.length), (c.rest.take n).length = n := by
    intro h
    rw [List.length_take, rest_length]
    omega
  constructor
  · intro h
    unfold take at h
    split at h
    · rename_i hle
      obtain ⟨rfl, rfl⟩ : c.rest.take n = xs ∧ _ = c' := by simpa [rest] using h
      exact ⟨hlen hle, hrest hle⟩
    · cases h
  · rintro ⟨rfl, hc⟩
    have hle : c.pos + xs.length ≤ c.items.length := by
      have := hc.pos_eq
      have := c'.pos_le
      rw [hc.1] at this
      omega
    have hxs : c.rest.take xs.length = xs := by
      rw [hc.2, List.take_left]
    have hc' : c' = ⟨c.items, c.pos + xs.length, hle⟩ :=
      hc.unique (by simpa only [hxs] using hrest hle)
    rw [take, dif_pos hle, ← rest, hxs, hc']

/-! ## Exact scanners -/

/-- A scanner `p` is exact for an encoding `enc` and a set `ok` of acceptable values when it
succeeds precisely on the inputs that start with the encoding of an acceptable value. -/
def Exact (p : Cursor α → Option (β × Cursor α)) (enc : β → List α) (ok : β → Prop) : Prop :=
  ∀ c v c', p c = some (v, c') ↔ ok v ∧ Consumes c c' (enc v)

/-- The stateful form: item `v` is acceptable in the state `s` when `ok s v`, and reading it leads
to the state `next s v`. -/
def ExactStep (p : σ → Cursor α → Option ((β × σ) × Cursor α)) (enc : β → List α)
    (ok : σ → β → Prop) (next : σ → β → σ) : Prop :=
  ∀ s c v s' c', p s c = some ((v, s'), c') ↔ (ok s v ∧ s' = next s v) ∧ Consumes c c' (enc v)

/-- Read `n` items in turn, threading a state through them. -/
def many (p : σ → Cursor α → Option ((β × σ) × Cursor α)) :
    ℕ → σ → Cursor α → Option ((List β × σ) × Cursor α)
  | 0, s, c => some (([], s), c)
  | n + 1, s, c => do
    let ((v, s), c) ← p s c
    let ((vs, s), c) ← many p n s c
    some ((v :: vs, s), c)

/-- Every item of the list is acceptable in the state its predecessors lead to. -/
def AllOk (ok : σ → β → Prop) (next : σ → β → σ) : σ → List β → Prop
  | _, [] => True
  | s, v :: vs => ok s v ∧ AllOk ok next (next s v) vs

/-- Iterating an exact scanner is exact for the concatenation of the encodings. -/
lemma ExactStep.many {p : σ → Cursor α → Option ((β × σ) × Cursor α)} {enc : β → List α}
    {ok : σ → β → Prop} {next : σ → β → σ} (h : ExactStep p enc ok next) (n : ℕ) :
    ExactStep (many p n) (List.flatMap enc) (fun s vs => vs.length = n ∧ AllOk ok next s vs)
      (fun s vs => vs.foldl next s) := by
  induction n with
  | zero =>
    intro s c vs s' c'
    rw [Cursor.many]
    constructor
    · intro heq
      simp only [Option.some.injEq, Prod.mk.injEq] at heq
      obtain ⟨⟨rfl, rfl⟩, rfl⟩ := heq
      exact ⟨⟨⟨rfl, trivial⟩, rfl⟩, consumes_nil_iff.mpr rfl⟩
    · rintro ⟨⟨⟨hlen, -⟩, rfl⟩, hc⟩
      obtain rfl := List.eq_nil_of_length_eq_zero hlen
      rw [consumes_nil_iff.mp hc]
      rfl
  | succ n ih =>
    intro s c vs s' c'
    simp only [Cursor.many, Option.bind_eq_bind, Option.bind_eq_some_iff, Prod.exists]
    constructor
    · rintro ⟨v, s₁, c₁, hv, vs₁, s₂, c₂, hvs, heq⟩
      simp only [Option.some.injEq, Prod.mk.injEq] at heq
      obtain ⟨⟨rfl, rfl⟩, rfl⟩ := heq
      obtain ⟨⟨hok, rfl⟩, hc₁⟩ := (h s c v s₁ c₁).mp hv
      obtain ⟨⟨⟨hlen, hall⟩, rfl⟩, hc₂⟩ := (ih _ _ _ _ _).mp hvs
      exact ⟨⟨⟨by simp [hlen], hok, hall⟩, rfl⟩, consumes_append_iff.mpr ⟨c₁, hc₁, hc₂⟩⟩
    · rintro ⟨⟨⟨hlen, hall⟩, rfl⟩, hc⟩
      obtain - | ⟨v, vs⟩ := vs
      · simp at hlen
      · obtain ⟨c₁, hc₁, hc₂⟩ := consumes_append_iff.mp hc
        exact ⟨v, _, c₁, (h ..).mpr ⟨⟨hall.1, rfl⟩, hc₁⟩, vs, _, c',
          (ih ..).mpr ⟨⟨⟨by simpa using hlen, hall.2⟩, rfl⟩, hc₂⟩, rfl⟩

/-- In a state that reading does not change, acceptability is a condition on each item alone. -/
lemma allOk_const_iff {ok : σ → β → Prop} {s : σ} {vs : List β} :
    AllOk ok (fun s _ => s) s vs ↔ ∀ v ∈ vs, ok s v := by
  induction vs with
  | nil => simp [AllOk]
  | cons v vs ih => simp [AllOk, ih]

/-- The concatenated encodings of items that take at least `m` elements each take at least `m` times
their number. -/
lemma length_mul_le_flatMap {enc : β → List α} {m : ℕ} (hmin : ∀ v, m ≤ (enc v).length)
    (vs : List β) : vs.length * m ≤ (vs.flatMap enc).length := by
  induction vs with
  | nil => simp
  | cons v vs ih =>
    have := hmin v
    rw [List.flatMap_cons, List.length_append, List.length_cons, Nat.succ_mul]
    omega

/-! ## Prefix codes -/

/-- Encodings of acceptable values can be told apart whatever follows them: where one starts, no
other one starts, and so none is a proper prefix of another. -/
def PrefixCode (enc : β → List α) (ok : β → Prop) : Prop :=
  ∀ v w xs ys, ok v → ok w → enc v ++ xs = enc w ++ ys → v = w ∧ xs = ys

/-- What an exact scanner reads is a prefix code. -/
lemma Exact.prefixCode {p : Cursor α → Option (β × Cursor α)} {enc : β → List α} {ok : β → Prop}
    (h : Exact p enc ok) : PrefixCode enc ok := by
  intro v w xs ys hv hw heq
  obtain ⟨c, hc, hxs⟩ := exists_consumes (c := start (enc v ++ xs)) rfl
  obtain ⟨c', hc', hys⟩ := exists_consumes (c := start (enc v ++ xs)) heq
  -- the scanner reads both values off the same cursor
  have hread := ((h _ v c).mpr ⟨hv, hc⟩).symm.trans ((h _ w c').mpr ⟨hw, hc'⟩)
  obtain ⟨rfl, rfl⟩ : v = w ∧ c = c' := by simpa using hread
  exact ⟨rfl, hxs.symm.trans hys⟩

/-- Two lists of items with the same concatenation, up to what follows: the longer list begins with
the shorter one. -/
lemma PrefixCode.flatMap_prefix {enc : β → List α} {ok : β → Prop} (h : PrefixCode enc ok)
    {vs ws : List β} {xs ys : List α} (hvs : ∀ v ∈ vs, ok v) (hws : ∀ w ∈ ws, ok w)
    (hle : vs.length ≤ ws.length) (heq : vs.flatMap enc ++ xs = ws.flatMap enc ++ ys) :
    ∃ us, ws = vs ++ us ∧ xs = us.flatMap enc ++ ys := by
  induction vs generalizing ws with
  | nil => exact ⟨ws, rfl, heq⟩
  | cons v vs ih =>
    obtain - | ⟨w, ws⟩ := ws
    · simp at hle
    · simp only [List.flatMap_cons, List.append_assoc] at heq
      obtain ⟨rfl, hrest⟩ := h v w _ _ (hvs v (by simp)) (hws w (by simp)) heq
      obtain ⟨us, rfl, hxs⟩ := ih (fun v hv => hvs v (by simp [hv]))
        (fun w hw => hws w (by simp [hw])) (by simpa using hle) hrest
      exact ⟨us, rfl, hxs⟩

/-- A counted list: a prefix code for the length and one for the items give one for the list. -/
lemma PrefixCode.counted {pre : ℕ → List α} {small : ℕ → Prop} (hpre : PrefixCode pre small)
    {enc : β → List α} {ok : β → Prop} (h : PrefixCode enc ok) :
    PrefixCode (fun vs : List β => pre vs.length ++ vs.flatMap enc)
      (fun vs => small vs.length ∧ ∀ v ∈ vs, ok v) := by
  rintro vs ws xs ys ⟨hlen, hvs⟩ ⟨hlen', hws⟩ heq
  simp only [List.append_assoc] at heq
  obtain ⟨hn, hrest⟩ := hpre _ _ _ _ hlen hlen' heq
  obtain ⟨us, rfl, rfl⟩ := h.flatMap_prefix hvs hws hn.le hrest
  obtain rfl : us = [] := by simpa using hn
  exact ⟨(List.append_nil vs).symm, rfl⟩

end Cursor

/-! ## Little-endian bytes -/

/-- The `n` little-endian bytes of `v`, which lose whatever does not fit in them. -/
def leBytes : ℕ → ℕ → List UInt8
  | 0, _ => []
  | n + 1, v => UInt8.ofNat v :: leBytes n (v / 256)

/-- The natural number a list of little-endian bytes stands for. -/
def leNat : List UInt8 → ℕ
  | [] => 0
  | b :: bs => b.toNat + 256 * leNat bs

/-- A number is written in as many bytes as it is given. -/
@[simp] lemma leBytes_length (n v : ℕ) : (leBytes n v).length = n := by
  induction n generalizing v with
  | zero => rfl
  | succ n ih => simp [leBytes, ih]

/-- A number of so many bytes is below that power of 256. -/
lemma leNat_lt (bs : List UInt8) : leNat bs < 256 ^ bs.length := by
  induction bs with
  | nil => simp [leNat]
  | cons b bs ih =>
    have hb := b.toNat_lt
    rw [leNat, List.length_cons, Nat.pow_succ]
    omega

/-- Reading back the bytes of a number that fits gives the number. -/
lemma leNat_leBytes {n v : ℕ} (h : v < 256 ^ n) : leNat (leBytes n v) = v := by
  induction n generalizing v with
  | zero =>
    have hv : v = 0 := by simpa using h
    rw [hv]
    rfl
  | succ n ih =>
    have hdiv : v / 256 < 256 ^ n := by
      rw [Nat.div_lt_iff_lt_mul (by decide), ← Nat.pow_succ]
      exact h
    rw [leBytes, leNat, ih hdiv, UInt8.toNat_ofNat']
    exact Nat.mod_add_div v 256

/-- A list of bytes is the representation of the number it stands for. -/
lemma leBytes_leNat (bs : List UInt8) : leBytes bs.length (leNat bs) = bs := by
  induction bs with
  | nil => rfl
  | cons b bs ih =>
    have hb := b.toNat_lt
    have hmod : UInt8.ofNat (b.toNat + 256 * leNat bs) = b := by
      apply UInt8.toNat_inj.mp
      rw [UInt8.toNat_ofNat']
      omega
    have hdiv : (b.toNat + 256 * leNat bs) / 256 = leNat bs := by omega
    rw [List.length_cons, leNat, leBytes, hmod, hdiv, ih]
