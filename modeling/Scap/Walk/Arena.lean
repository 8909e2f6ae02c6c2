import Scap.Foundations.Spans
import Scap.Walk.Walker

/-!
# The arena

The byte arena that holds the repository paths of a walk (`src/walk/arena.rs`), with every operation
that can panic doing so: a length past `u32::MAX`, an addition of two `u32`, a slice of the bytes.

`Arena.Holds` is what an arena is for: its bytes are the paths one after the other, and its handles
are the spans they take up.  `push` and `merge` keep it, so over a family of arenas the only panic
is that of an arena grown too large (`build_holds`).
-/

namespace Scap

open Spans

/-! ## The code -/

/-- Why an operation on an arena panics. -/
inductive ArenaPanic where
  /-- `repository path arena grew past 4 GiB`. -/
  | grewPast4GiB
  /-- A sum of two `u32` that is none. -/
  | addWithOverflow
  /-- A range that is no range of the bytes. -/
  | sliceOutOfBounds
deriving Repr, DecidableEq

/-- `Range<u32>`, the handle of one path. -/
structure Handle where
  start : UInt32
  stop : UInt32
deriving Repr, DecidableEq

/-- Concatenated repository paths, and one handle per path. -/
structure Arena where
  bytes : Bytes := []
  repos : List Handle := []
deriving Repr, DecidableEq

/-- `a + b` on `u32`. -/
def addU32 (a b : UInt32) : Except ArenaPanic UInt32 :=
  if a.toNat + b.toNat < UInt32.size then .ok (a + b) else .error .addWithOverflow

namespace Arena

/-- `Arena::offset`. -/
def offset (len : ℕ) : Except ArenaPanic UInt32 :=
  if len < UInt32.size then .ok (UInt32.ofNat len) else .error .grewPast4GiB

/-- `Arena::push`. -/
def push (arena : Arena) (path : Bytes) : Except ArenaPanic Arena := do
  let start ← offset arena.bytes.length
  let bytes := arena.bytes ++ path
  let stop ← offset bytes.length
  return ⟨bytes, arena.repos ++ [⟨start, stop⟩]⟩

/-- `Arena::len`. -/
def len (arena : Arena) : ℕ := arena.repos.length

/-- `Arena::is_empty`. -/
def isEmpty (arena : Arena) : Bool := arena.repos.isEmpty

/-- `&self.bytes[r.start as usize..r.end as usize]`. -/
def sliceAt (arena : Arena) (r : Handle) : Except ArenaPanic Bytes :=
  if r.start.toNat ≤ r.stop.toNat ∧ r.stop.toNat ≤ arena.bytes.length then
    .ok ((arena.bytes.take r.stop.toNat).drop r.start.toNat)
  else .error .sliceOutOfBounds

/-- `Arena::iter`, run to its end. -/
def iter (arena : Arena) : Except ArenaPanic (List Bytes) := arena.repos.mapM arena.sliceAt

/-- `r.start + shift..r.end + shift`. -/
def shiftHandle (shift : UInt32) (r : Handle) : Except ArenaPanic Handle := do
  return ⟨← addU32 r.start shift, ← addU32 r.stop shift⟩

/-- `Arena::merge`. -/
def merge (arena other : Arena) : Except ArenaPanic Arena := do
  let shift ← offset arena.bytes.length
  let bytes := arena.bytes ++ other.bytes
  let _ ← offset bytes.length
  let shifted ← other.repos.mapM (shiftHandle shift)
  return ⟨bytes, arena.repos ++ shifted⟩

end Arena

/-! ## What an arena holds -/

/-- The bytes a handle spans. -/
def Handle.span (r : Handle) : ℕ × ℕ := (r.start.toNat, r.stop.toNat)

/-- The arena holds the paths: they are its bytes one after the other, and its handles are the spans
they take up there. -/
structure Arena.Holds (arena : Arena) (paths : List Bytes) : Prop where
  bytes : arena.bytes = paths.flatten
  repos : arena.repos.map Handle.span = spans 0 paths
  fits : paths.flatten.length < UInt32.size

/-- No handle is out of bounds, and no two handles share a byte. -/
structure Arena.Tiled (arena : Arena) : Prop where
  inBounds : ∀ r ∈ arena.repos, r.start ≤ r.stop ∧ r.stop.toNat ≤ arena.bytes.length
  apart : arena.repos.Pairwise fun a b => a.stop ≤ b.start

/-- A fallible map none of whose calls fails. -/
lemma mapM_eq_ok {α β ε : Type} {f : α → Except ε β} {g : α → β} {xs : List α}
    (h : ∀ x ∈ xs, f x = .ok (g x)) : xs.mapM f = .ok (xs.map g) := by
  induction xs with
  | nil => rfl
  | cons x xs ih =>
    obtain ⟨hx, hxs⟩ := List.forall_mem_cons.mp h
    rw [List.mapM_cons, hx, ih hxs]
    rfl

namespace Arena

variable {arena other : Arena} {paths others : List Bytes}

/-- A length that fits is an offset. -/
lemma offset_eq_ok {len : ℕ} (h : len < UInt32.size) : offset len = .ok (UInt32.ofNat len) :=
  if_pos h

/-- A length that does not fit is an error. -/
lemma offset_eq_error {len : ℕ} (h : ¬ len < UInt32.size) : offset len = .error .grewPast4GiB :=
  if_neg h

/-- An empty arena holds no paths. -/
lemma holds_empty : Holds {} [] := ⟨rfl, rfl, by decide⟩

/-- The handles of an arena are ordered pairs of places in its bytes. -/
lemma Holds.span_mem (h : arena.Holds paths) {r : Handle} (hr : r ∈ arena.repos) :
    r.start.toNat ≤ r.stop.toNat ∧ r.stop.toNat ≤ paths.flatten.length := by
  have hspan : r.span ∈ spans 0 paths := h.repos ▸ List.mem_map_of_mem hr
  have hmem := mem_spans hspan
  rw [Nat.zero_add] at hmem
  exact hmem.2

/-- An arena that holds paths is tiled by their spans. -/
lemma Holds.tiled (h : arena.Holds paths) : arena.Tiled where
  inBounds r hr := by
    obtain ⟨hle, hto⟩ := h.span_mem hr
    rw [h.bytes]
    exact ⟨UInt32.le_iff_toNat_le.mpr hle, hto⟩
  apart := by
    have hpairwise := pairwise_spans 0 paths
    rw [← h.repos, List.pairwise_map] at hpairwise
    exact hpairwise.imp UInt32.le_iff_toNat_le.mpr

/-- Iterating yields the paths the arena holds. -/
lemma Holds.iter (h : arena.Holds paths) : arena.iter = .ok paths := by
  have hslice : ∀ r ∈ arena.repos, arena.sliceAt r = .ok (slice paths.flatten r.span) := by
    intro r hr
    rw [sliceAt, h.bytes, if_pos (h.span_mem hr)]
    rfl
  have hpaths := map_slice_spans [] paths
  rw [List.length_nil, List.nil_append, ← h.repos, List.map_map] at hpaths
  rw [Arena.iter, mapM_eq_ok hslice]
  exact congrArg Except.ok hpaths

/-- An arena that holds paths counts them. -/
lemma Holds.len (h : arena.Holds paths) : arena.len = paths.length := by
  have hlength := congrArg List.length h.repos
  rwa [List.length_map, length_spans] at hlength

/-- An arena that holds no paths is empty. -/
lemma Holds.isEmpty (h : arena.Holds paths) : arena.isEmpty = paths.isEmpty := by
  rw [Bool.eq_iff_iff, Arena.isEmpty, List.isEmpty_iff_length_eq_zero,
    List.isEmpty_iff_length_eq_zero, ← h.len, Arena.len]

/-- `push` adds its path, or panics where the path does not fit. -/
lemma Holds.push (h : arena.Holds paths) (path : Bytes) :
    if (paths ++ [path]).flatten.length < UInt32.size then
      ∃ arena', arena.push path = .ok arena' ∧ arena'.Holds (paths ++ [path])
    else arena.push path = .error .grewPast4GiB := by
  have hflatten : (paths ++ [path]).flatten = paths.flatten ++ path := by simp
  split
  case isTrue hfits =>
    have hend : (paths.flatten ++ path).length < UInt32.size := hflatten ▸ hfits
    let start := UInt32.ofNat paths.flatten.length
    let stop := UInt32.ofNat (paths.flatten ++ path).length
    refine ⟨⟨paths.flatten ++ path, arena.repos ++ [⟨start, stop⟩]⟩, ?_, hflatten.symm, ?_, hfits⟩
    · simp only [Arena.push, h.bytes, offset_eq_ok h.fits, offset_eq_ok hend]
      rfl
    · rw [List.map_append, h.repos, spans_append, Nat.zero_add, List.map_singleton, Handle.span,
        UInt32.toNat_ofNat_of_lt' h.fits, UInt32.toNat_ofNat_of_lt' hend, List.length_append,
        spans_cons, spans_nil]
  case isFalse hfits =>
    rw [hflatten] at hfits
    simp only [Arena.push, h.bytes, offset_eq_ok h.fits, offset_eq_error hfits]
    rfl

/-- The handles that come in move along by the bytes that were there, and no sum overflows. -/
lemma Holds.mapM_shiftHandle (h : other.Holds others) (shift : UInt32)
    (hfits : others.flatten.length + shift.toNat < UInt32.size) :
    ∃ shifted, other.repos.mapM (shiftHandle shift) = .ok shifted ∧
      shifted.map Handle.span = spans shift.toNat others := by
  have hadd : ∀ r ∈ other.repos, r.start.toNat + shift.toNat < UInt32.size ∧
      r.stop.toNat + shift.toNat < UInt32.size := by
    intro r hr
    obtain ⟨hle, hto⟩ := h.span_mem hr
    omega
  refine ⟨other.repos.map fun r => ⟨r.start + shift, r.stop + shift⟩, mapM_eq_ok ?_, ?_⟩
  · intro r hr
    obtain ⟨hstart, hstop⟩ := hadd r hr
    simp only [shiftHandle, addU32, if_pos hstart, if_pos hstop]
    rfl
  · rw [← Nat.zero_add shift.toNat, ← map_shift_spans, ← h.repos, List.map_map, List.map_map]
    refine List.map_congr_left fun r hr => ?_
    obtain ⟨hstart, hstop⟩ := hadd r hr
    simp only [Function.comp_apply, Handle.span, Spans.shift, UInt32.toNat_add,
      Nat.mod_eq_of_lt hstart, Nat.mod_eq_of_lt hstop]

/-- `merge` adds the other arena's paths, or panics where they do not fit. -/
lemma Holds.merge (h : arena.Holds paths) (hother : other.Holds others) :
    if (paths ++ others).flatten.length < UInt32.size then
      ∃ arena', arena.merge other = .ok arena' ∧ arena'.Holds (paths ++ others)
    else arena.merge other = .error .grewPast4GiB := by
  have hflatten : (paths ++ others).flatten = paths.flatten ++ others.flatten :=
    List.flatten_append
  have hshift : (UInt32.ofNat paths.flatten.length).toNat = paths.flatten.length :=
    UInt32.toNat_ofNat_of_lt' h.fits
  split
  case isTrue hfits =>
    have hend : (paths.flatten ++ others.flatten).length < UInt32.size := hflatten ▸ hfits
    -- the one conversion bounds every handle that comes in
    obtain ⟨shifted, hshifted, hspans⟩ :=
      hother.mapM_shiftHandle (UInt32.ofNat paths.flatten.length) (by
        rw [List.length_append] at hend
        omega)
    refine ⟨⟨paths.flatten ++ others.flatten, arena.repos ++ shifted⟩, ?_, hflatten.symm, ?_, hfits⟩
    · simp only [Arena.merge, h.bytes, hother.bytes, offset_eq_ok h.fits, offset_eq_ok hend,
        bind, Except.bind, hshifted]
      rfl
    · rw [List.map_append, h.repos, hspans, hshift, spans_append, Nat.zero_add]
  case isFalse hfits =>
    rw [hflatten] at hfits
    simp only [Arena.merge, h.bytes, hother.bytes, offset_eq_ok h.fits, offset_eq_error hfits]
    rfl

end Arena

/-! ## Families of arenas -/

section Family

variable {ι : Type} [DecidableEq ι]

/-- One call on the arenas of a family.  An arena is borrowed mutably while another is merged into
it, so the two differ. -/
inductive ArenaOp (ι : Type) where
  | push (i : ι) (path : Bytes)
  | merge (i j : ι) (hne : i ≠ j)

namespace ArenaOp

/-- The arena the call grows. -/
def target : ArenaOp ι → ι
  | push i _ => i
  | merge i _ _ => i

/-- The call, on the arenas. -/
def apply (family : ι → Arena) : ArenaOp ι → Except ArenaPanic (ι → Arena)
  | push i path => do return Function.update family i (← (family i).push path)
  | merge i j _ => do return Function.update family i (← (family i).merge (family j))

/-- The call, on the paths each arena has been given. -/
def record (pushed : ι → List Bytes) : ArenaOp ι → ι → List Bytes
  | push i path => Function.update pushed i (pushed i ++ [path])
  | merge i j _ => Function.update pushed i (pushed i ++ pushed j)

/-- The family a list of calls builds out of empty arenas. -/
def runAll (ops : List (ArenaOp ι)) : Except ArenaPanic (ι → Arena) := ops.foldlM apply fun _ => {}

/-- The paths each arena has been given, in the order of the calls. -/
def pushedPaths (ops : List (ArenaOp ι)) : ι → List Bytes := ops.foldl record fun _ => []

/-- Operations are run in order, the last one last. -/
lemma runAll_concat (ops : List (ArenaOp ι)) (op : ArenaOp ι) :
    runAll (ops ++ [op]) = runAll ops >>= fun family => op.apply family := by
  rw [runAll, List.foldlM_append]
  refine congrArg _ (funext fun family => ?_)
  rw [List.foldlM_cons]
  exact bind_pure _

/-- The paths pushed are recorded in order, the last one last. -/
lemma pushedPaths_concat (ops : List (ArenaOp ι)) (op : ArenaOp ι) :
    pushedPaths (ops ++ [op]) = op.record (pushedPaths ops) := by
  rw [pushedPaths, List.foldl_append]
  rfl

/-- Arenas that hold some paths go on holding paths where one of them is replaced. -/
lemma holds_update {family : ι → Arena} {pushed : ι → List Bytes}
    (h : ∀ i, (family i).Holds (pushed i)) {i : ι} {arena : Arena} {paths : List Bytes}
    (harena : arena.Holds paths) (k : ι) :
    (Function.update family i arena k).Holds (Function.update pushed i paths k) := by
  by_cases hk : k = i
  · subst hk
    simpa only [Function.update_self] using harena
  · simpa only [Function.update_of_ne hk] using h k

/-- A call adds to the paths its arena holds, or panics where they no longer fit. -/
lemma apply_holds {family : ι → Arena} {pushed : ι → List Bytes}
    (h : ∀ i, (family i).Holds (pushed i)) (op : ArenaOp ι) :
    if (op.record pushed op.target).flatten.length < UInt32.size then
      ∃ family', op.apply family = .ok family' ∧ ∀ i, (family' i).Holds (op.record pushed i)
    else op.apply family = .error .grewPast4GiB := by
  cases op with
  | push i path =>
    have hpush := (h i).push path
    simp only [target, record, Function.update_self, apply]
    split at hpush
    · obtain ⟨arena, harena, hholds⟩ := hpush
      rw [if_pos ‹_›, harena]
      exact ⟨_, rfl, holds_update h hholds⟩
    · rw [if_neg ‹_›, hpush]
      rfl
  | merge i j hne =>
    have hmerge := (h i).merge (h j)
    simp only [target, record, Function.update_self, apply]
    split at hmerge
    · obtain ⟨arena, harena, hholds⟩ := hmerge
      rw [if_pos ‹_›, harena]
      exact ⟨_, rfl, holds_update h hholds⟩
    · rw [if_neg ‹_›, hmerge]
      rfl

/-- One of the calls panics: the arena it grows is given more than `u32::MAX` bytes. -/
def Overgrows (ops : List (ArenaOp ι)) : Prop :=
  ∃ earlier op later, ops = earlier ++ op :: later ∧
    (∃ family, runAll earlier = .ok family ∧ op.apply family = .error .grewPast4GiB) ∧
    UInt32.size ≤ (pushedPaths (earlier ++ [op]) op.target).flatten.length

/-- After any calls, each arena holds the paths it has been given, or one has grown too large. -/
lemma runAll_cases (ops : List (ArenaOp ι)) :
    (∃ family, runAll ops = .ok family ∧ ∀ i, (family i).Holds (pushedPaths ops i)) ∨
      runAll ops = .error .grewPast4GiB ∧ Overgrows ops := by
  induction ops using List.reverseRecOn with
  | nil => exact .inl ⟨_, rfl, fun i => Arena.holds_empty⟩
  | append_singleton ops op ih =>
    rw [runAll_concat]
    obtain ⟨family, hfamily, hholds⟩ | ⟨hrun, earlier, first, later, rfl, hfirst⟩ := ih
    · rw [hfamily, pushedPaths_concat]
      have happly := apply_holds hholds op
      split at happly
      case isTrue hfits =>
        obtain ⟨family', hfamily', hholds'⟩ := happly
        exact .inl ⟨family', hfamily', hholds'⟩
      case isFalse hfits =>
        refine .inr ⟨happly, ops, op, [], rfl, ⟨family, hfamily, happly⟩, ?_⟩
        rw [pushedPaths_concat]
        exact Nat.le_of_not_lt hfits
    · rw [hrun]
      exact .inr ⟨rfl, earlier, first, later ++ [op], by simp, hfirst⟩

/-- Whatever arenas are pushed to and merged, in whatever order, either a call panics because its
arena would hold more than `u32::MAX` bytes, or every arena yields the paths it has been given, from
handles that are in bounds and apart. -/
theorem runAll_iter (ops : List (ArenaOp ι)) :
    (∃ family, runAll ops = .ok family ∧
      ∀ i, (family i).iter = .ok (pushedPaths ops i) ∧ (family i).Tiled) ∨
    runAll ops = .error .grewPast4GiB ∧ Overgrows ops := by
  refine (runAll_cases ops).imp_left fun ⟨family, hfamily, hholds⟩ => ?_
  exact ⟨family, hfamily, fun i => ⟨(hholds i).iter, (hholds i).tiled⟩⟩

end ArenaOp

end Family

/-! ## The arenas of the workers -/

/-- Folding one worker's output into another's, as `Out::merge` does to their arenas. -/
theorem Arena.Holds.merge_out {arena other arena' : Arena} {out otherOut : Out}
    (h : arena.Holds out.arena) (hother : other.Holds otherOut.arena)
    (hmerge : arena.merge other = .ok arena') : arena'.Holds (out.merge otherOut).arena := by
  have hcases := h.merge hother
  split at hcases
  · obtain ⟨merged, hmerged, hholds⟩ := hcases
    obtain rfl : merged = arena' := Except.ok.inj (hmerged.symm.trans hmerge)
    exact hholds
  · rw [hcases] at hmerge
    cases hmerge

/-- The arena of a whole walk holds the repositories of all its workers. -/
theorem Arena.Holds.mergeAll {arenas : List Arena} {outs : List Out} {arena arena' : Arena}
    {out : Out} (h : arena.Holds out.arena)
    (hall : List.Forall₂ (fun a (o : Out) => a.Holds o.arena) arenas outs)
    (hmerge : arenas.foldlM Arena.merge arena = .ok arena') :
    arena'.Holds (out.merge (Out.mergeAll outs)).arena := by
  induction hall generalizing arena out with
  | nil =>
    obtain rfl : arena = arena' := Except.ok.inj hmerge
    rwa [Out.mergeAll_nil, Out.merge_new]
  | @cons other otherOut arenas outs hother _ ih =>
    rw [List.foldlM_cons] at hmerge
    cases hfirst : arena.merge other with
    | error fault =>
      rw [hfirst] at hmerge
      cases hmerge
    | ok merged =>
      rw [hfirst] at hmerge
      rw [Out.mergeAll_cons, ← Out.merge_assoc]
      exact ih (h.merge_out hother hfirst) hmerge

end Scap
