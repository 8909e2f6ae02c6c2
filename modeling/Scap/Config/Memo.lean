import Mathlib.Data.List.Basic
import Scap.Foundations.Locks
import Scap.Foundations.Transition

/-!
# The memo of `urlmatch`

`ConfigSnapshot::urlmatch` (`src/config.rs`), as any number of threads run it.  A snapshot points to
its memo, and a clone of the snapshot to the same one.  A call locks the map of the memo, takes or
makes the slot of its URL, unlocks the map, locks the slot, and answers from the slot; if the slot
is empty it runs git, and stores what git answers.

The URLs, the answers and the errors are of any types.  `memoized` says what the two locks are for:
of each URL git answers once and is not asked again, and nobody sees or waits for the slot of
another URL.
-/

namespace Scap

namespace Config

open Function (update)
open Transition (Reachable)

/-! ## The machine -/

/-- One call of `urlmatch`: the memo it uses, its URL, and its number among the calls of the
thread. -/
structure Call (U : Type) where
  memo : ℕ
  url : U
  number : ℕ
deriving DecidableEq

/-- Where the map of a memo keeps the slot. -/
def Call.key {U : Type} (call : Call U) : ℕ × U := (call.memo, call.url)

/-- Where a thread stands. -/
inductive Stage (U A E : Type) where
  /-- In no call. -/
  | idle
  /-- Before `lock(&self.urlmatch.cells)`. -/
  | atMap (call : Call U)
  /-- With the map locked. -/
  | inMap (call : Call U)
  /-- With the map locked, and a clone of the `Arc` of the slot. -/
  | found (call : Call U) (cell : ℕ)
  /-- Before `lock(&cell)`. -/
  | atSlot (call : Call U) (cell : ℕ)
  /-- With the slot locked. -/
  | inSlot (call : Call U) (cell : ℕ)
  /-- In `urlmatch_spawn`. -/
  | spawning (call : Call U) (cell : ℕ)
  /-- Before `*slot = Some(answer.clone())`. -/
  | answered (call : Call U) (cell : ℕ) (answer : A)
  /-- About to return, and to unlock the slot. -/
  | leaving (call : Call U) (cell : ℕ) (result : Except E A)

/-- What has happened, as far as the outside can tell. -/
inductive Happened (T U A E : Type) where
  /-- `urlmatch_spawn` is called. -/
  | spawned (t : T) (call : Call U)
  /-- It has returned an answer. -/
  | answered (t : T) (call : Call U) (answer : A)
  /-- It has returned an error. -/
  | failed (t : T) (call : Call U) (error : E)
  /-- `urlmatch` has returned. -/
  | returned (t : T) (call : Call U) (result : Except E A)

/-- The memory the threads share, and where each of them stands. -/
structure Shared (T U A E : Type) where
  /-- The memo each snapshot points to. -/
  snapshots : List ℕ
  /-- The owner of the lock of a map. -/
  mapOwner : ℕ → Option T
  /-- The maps, as one table. -/
  cells : ℕ × U → Option ℕ
  /-- The first slot not allocated. -/
  nextCell : ℕ
  /-- The owner of the lock of a slot. -/
  slotOwner : ℕ → Option T
  slot : ℕ → Option A
  stage : T → Stage U A E
  /-- How many calls a thread has begun. -/
  begun : T → ℕ
  /-- What has happened, the latest first. -/
  history : List (Happened T U A E)

section Machine

variable {T U A E : Type}

namespace Shared

/-- A thread goes on. -/
def become [DecidableEq T] (s : Shared T U A E) (t : T) (stage : Stage U A E) : Shared T U A E :=
  { s with stage := update s.stage t stage }

/-- Something happens. -/
def note (s : Shared T U A E) (event : Happened T U A E) : Shared T U A E :=
  { s with history := event :: s.history }

/-- One snapshot with an empty memo, and no call begun. -/
def Initial (s : Shared T U A E) : Prop :=
  s.snapshots = [0] ∧ (∀ m, s.mapOwner m = none) ∧ (∀ key, s.cells key = none) ∧
    (∀ c, s.slotOwner c = none) ∧ (∀ t, s.stage t = .idle) ∧ s.history = []

/-- One step of one thread. -/
inductive Step [DecidableEq T] [DecidableEq U] : Shared T U A E → Shared T U A E → Prop
  /-- A snapshot is cloned, and with it the `Arc` of its memo. -/
  | clone {s m} : m ∈ s.snapshots → Step s { s with snapshots := s.snapshots ++ [m] }
  /-- A thread calls `urlmatch` on some snapshot. -/
  | call {s t m} (url : U) : s.stage t = .idle → m ∈ s.snapshots →
      Step s { s.become t (.atMap ⟨m, url, s.begun t⟩) with
        begun := update s.begun t (s.begun t + 1) }
  | lockMap {s t call} : s.stage t = .atMap call → s.mapOwner call.memo = none →
      Step s { s.become t (.inMap call) with mapOwner := update s.mapOwner call.memo (some t) }
  /-- `entry(..).or_default()`, of a URL that has a slot. -/
  | lookup {s t call cell} : s.stage t = .inMap call → s.cells call.key = some cell →
      Step s (s.become t (.found call cell))
  /-- `entry(..).or_default()`, of a URL that has none. -/
  | create {s t call} : s.stage t = .inMap call → s.cells call.key = none →
      Step s { s.become t (.found call s.nextCell) with
        cells := update s.cells call.key (some s.nextCell)
        nextCell := s.nextCell + 1
        slot := update s.slot s.nextCell none }
  | unlockMap {s t call cell} : s.stage t = .found call cell →
      Step s { s.become t (.atSlot call cell) with mapOwner := update s.mapOwner call.memo none }
  | lockSlot {s t call cell} : s.stage t = .atSlot call cell → s.slotOwner cell = none →
      Step s { s.become t (.inSlot call cell) with slotOwner := update s.slotOwner cell (some t) }
  /-- The slot has an answer. -/
  | hit {s t call cell answer} : s.stage t = .inSlot call cell → s.slot cell = some answer →
      Step s (s.become t (.leaving call cell (.ok answer)))
  /-- The slot is empty. -/
  | miss {s t call cell} : s.stage t = .inSlot call cell → s.slot cell = none →
      Step s ((s.become t (.spawning call cell)).note (.spawned t call))
  | answer {s t call cell} (answer : A) : s.stage t = .spawning call cell →
      Step s ((s.become t (.answered call cell answer)).note (.answered t call answer))
  | fail {s t call cell} (error : E) : s.stage t = .spawning call cell →
      Step s ((s.become t (.leaving call cell (.error error))).note (.failed t call error))
  | store {s t call cell answer} : s.stage t = .answered call cell answer →
      Step s { s.become t (.leaving call cell (.ok answer)) with
        slot := update s.slot cell (some answer) }
  /-- The guard of the slot is dropped as the call returns. -/
  | unlockSlot {s t call cell result} : s.stage t = .leaving call cell result →
      Step s { (s.become t .idle).note (.returned t call result) with
        slotOwner := update s.slotOwner cell none }
  /-- The guard of the slot is dropped by a panic.  The lock is poisoned, which `lock` ignores. -/
  | unwind {s t call cell} : s.stage t = .spawning call cell →
      Step s { s.become t .idle with slotOwner := update s.slotOwner cell none }

end Shared

/-! ## What stages and events say -/

namespace Stage

/-- The call of a stage and the slot it has looked up. -/
def looked : Stage U A E → Option (Call U × ℕ)
  | idle | atMap _ | inMap _ => none
  | found call cell | atSlot call cell | inSlot call cell | spawning call cell
  | answered call cell _ | leaving call cell _ => some (call, cell)

/-- The call of a stage. -/
def call? : Stage U A E → Option (Call U)
  | idle => none
  | atMap call | inMap call | found call _ | atSlot call _ | inSlot call _ | spawning call _
  | answered call _ _ | leaving call _ _ => some call

/-- The memo whose map the stage has locked. -/
def heldMap : Stage U A E → Option ℕ
  | inMap call | found call _ => some call.memo
  | _ => none

/-- The slot the stage has locked. -/
def heldSlot : Stage U A E → Option ℕ
  | inSlot _ cell | spawning _ cell | answered _ cell _ | leaving _ cell _ => some cell
  | _ => none

/-- The slot of a call that asks git and has not stored an answer. -/
def unanswered : Stage U A E → Option ℕ
  | spawning _ cell | answered _ cell _ | leaving _ cell (.error _) => some cell
  | _ => none

variable {stage : Stage U A E} {cell : ℕ}

/-- Who has not stored an answer has locked the slot. -/
lemma heldSlot_of_unanswered (h : stage.unanswered = some cell) :
    stage.heldSlot = some cell := by
  cases stage with
  | leaving call cell' result => cases result <;> first | exact h | cases h
  | spawning | answered => exact h
  | _ => cases h

/-- A caller that has looked is in a call. -/
lemma call?_of_looked {call : Call U} (h : stage.looked = some (call, cell)) :
    stage.call? = some call := by
  cases stage with
  | idle | atMap call' | inMap call' => cases h
  | _ =>
    cases h
    rfl

/-- Who has locked a slot has looked it up. -/
lemma looked_of_heldSlot (h : stage.heldSlot = some cell) :
    ∃ call, stage.looked = some (call, cell) := by
  cases stage with
  | inSlot call | spawning call | answered call | leaving call =>
    cases h
    exact ⟨call, rfl⟩
  | _ => cases h

end Stage

/-- The call an event belongs to. -/
def Happened.call : Happened T U A E → Call U
  | spawned _ call | answered _ call _ | failed _ call _ | returned _ call _ => call

/-- Git is asked for the URL, or answers. -/
def Happened.asks : Happened T U A E → ℕ × U → Prop
  | spawned _ call, key | answered _ call _, key => call.key = key
  | _, _ => False

/-- Git answers for the URL. -/
def Happened.answers : Happened T U A E → ℕ × U → Prop
  | answered _ call _, key => call.key = key
  | _, _ => False

/-! ## Locks and slots -/

namespace Shared

variable {s s' : Shared T U A E}

/-- The owners of the locks are the threads that hold them. -/
structure Locked (s : Shared T U A E) : Prop where
  map : Owned Stage.heldMap s.mapOwner s.stage
  slot : Owned Stage.heldSlot s.slotOwner s.stage

/-- A step keeps who has the locks. -/
lemma Locked.step [DecidableEq T] [DecidableEq U] (h : Locked s) (hstep : Step s s') :
    Locked s' := by
  obtain ⟨hmap, hslot⟩ := h
  cases hstep with
  | clone => exact ⟨hmap, hslot⟩
  | call url hstage => exact ⟨hmap.keep (by rw [hstage]; rfl), hslot.keep (by rw [hstage]; rfl)⟩
  | lockMap hstage hfree =>
    exact ⟨hmap.acquire hfree (by rw [hstage]; rfl) rfl, hslot.keep (by rw [hstage]; rfl)⟩
  | lookup hstage | create hstage =>
    exact ⟨hmap.keep (by rw [hstage]; rfl), hslot.keep (by rw [hstage]; rfl)⟩
  | unlockMap hstage =>
    exact ⟨hmap.release (by rw [hstage]; rfl) rfl, hslot.keep (by rw [hstage]; rfl)⟩
  | lockSlot hstage hfree =>
    exact ⟨hmap.keep (by rw [hstage]; rfl), hslot.acquire hfree (by rw [hstage]; rfl) rfl⟩
  | hit hstage | miss hstage | answer _ hstage | fail _ hstage | store hstage =>
    exact ⟨hmap.keep (by rw [hstage]; rfl), hslot.keep (by rw [hstage]; rfl)⟩
  | unlockSlot hstage | unwind hstage =>
    exact ⟨hmap.keep (by rw [hstage]; rfl), hslot.release (by rw [hstage]; rfl) rfl⟩

/-- A slot that was looked up is the one of the call's URL, and no two keys share a slot. -/
structure Slotted (stage : T → Stage U A E) (cells : ℕ × U → Option ℕ) (nextCell : ℕ) : Prop where
  looked : ∀ {t call cell}, (stage t).looked = some (call, cell) → cells call.key = some cell
  lt : ∀ {key cell}, cells key = some cell → cell < nextCell
  injective : ∀ {key key' cell}, cells key = some cell → cells key' = some cell → key = key'

variable {stage : T → Stage U A E} {cells : ℕ × U → Option ℕ} {nextCell : ℕ}

/-- A thread goes on with the slot it has, or with that of its URL. -/
lemma Slotted.become [DecidableEq T] (h : Slotted stage cells nextCell) {t : T}
    {new : Stage U A E}
    (hnew : ∀ call cell, new.looked = some (call, cell) →
      (stage t).looked = some (call, cell) ∨ cells call.key = some cell) :
    Slotted (update stage t new) cells nextCell where
  looked {t' call cell} hlooked := by
    rcases Transition.update_cases (fun st => Stage.looked st = some (call, cell)) hlooked with
      ⟨-, hlooked⟩ | ⟨-, hlooked⟩
    · rcases hnew call cell hlooked with hold | hcell
      · exact h.looked hold
      · exact hcell
    · exact h.looked hlooked
  lt := h.lt
  injective := h.injective

/-- A new slot is given to a URL that has none. -/
lemma Slotted.create [DecidableEq U] (h : Slotted stage cells nextCell) {key : ℕ × U}
    (hnone : cells key = none) :
    Slotted stage (update cells key (some nextCell)) (nextCell + 1) where
  looked {t call cell} hlooked := by
    have hold := h.looked hlooked
    rw [Function.update_of_ne]
    · exact hold
    · intro heq
      rw [heq, hnone] at hold
      cases hold
  lt {key' cell} hcell := by
    rcases Transition.update_cases (· = some cell) hcell with ⟨-, hnew⟩ | ⟨-, hold⟩
    · exact Option.some.inj hnew ▸ Nat.lt_succ_self _
    · exact Nat.lt_succ_of_lt (h.lt hold)
  injective {key₁ key₂ cell} h₁ h₂ := by
    rcases Transition.update_cases (· = some cell) h₁ with ⟨rfl, hnew₁⟩ | ⟨-, hold₁⟩
    · rcases Transition.update_cases (· = some cell) h₂ with ⟨rfl, -⟩ | ⟨-, hold₂⟩
      · rfl
      · exact absurd (h.lt hold₂) (Option.some.inj hnew₁ ▸ Nat.lt_irrefl _)
    · rcases Transition.update_cases (· = some cell) h₂ with ⟨rfl, hnew₂⟩ | ⟨-, hold₂⟩
      · exact absurd (h.lt hold₁) (Option.some.inj hnew₂ ▸ Nat.lt_irrefl _)
      · exact h.injective hold₁ hold₂

/-- A step keeps the slots of different keys apart. -/
lemma Slotted.step [DecidableEq T] [DecidableEq U] (h : Slotted s.stage s.cells s.nextCell)
    (hstep : Step s s') :
    Slotted s'.stage s'.cells s'.nextCell := by
  cases hstep with
  | clone => exact h
  | call | lockMap | unlockSlot | unwind => exact h.become fun _ _ hlooked => nomatch hlooked
  | lookup hstage hcell =>
    refine h.become fun _ _ hlooked => .inr ?_
    cases hlooked
    exact hcell
  | create hstage hnone =>
    refine (h.create hnone).become fun _ _ hlooked => .inr ?_
    cases hlooked
    exact Function.update_self ..
  | unlockMap hstage | lockSlot hstage | hit hstage | miss hstage | answer _ hstage | fail _ hstage
  | store hstage => exact h.become fun _ _ hlooked => .inl (by rw [hstage]; exact hlooked)

/-! ## Answers -/

/-- What is stored is what git has answered for the URL; and once it has answered, the answer is
stored or about to be, and git is not asked again. -/
structure Answers (stage : T → Stage U A E) (cells : ℕ × U → Option ℕ) (slot : ℕ → Option A)
    (history : List (Happened T U A E)) : Prop where
  empty : ∀ {t cell}, (stage t).unanswered = some cell → slot cell = none
  leaving : ∀ {t call cell answer}, stage t = .leaving call cell (.ok answer) →
    slot cell = some answer
  pending : ∀ {t call cell answer}, stage t = .answered call cell answer →
    .answered t call answer ∈ history
  stored : ∀ {key cell answer}, cells key = some cell → slot cell = some answer →
    ∃ t call, call.key = key ∧ .answered t call answer ∈ history
  kept : ∀ {t call answer}, .answered t call answer ∈ history →
    ∃ cell, cells call.key = some cell ∧
      (slot cell = some answer ∨ stage t = .answered call cell answer)
  once : history.Pairwise fun later earlier => ∀ key, earlier.answers key → ¬later.asks key

namespace Answers

variable {slot : ℕ → Option A} {history : List (Happened T U A E)}

/-- A thread goes on that had no answer to store and gets none. -/
lemma become [DecidableEq T] (h : Answers stage cells slot history) {t : T} {new : Stage U A E}
    (hold : ∀ call cell answer, stage t ≠ .answered call cell answer)
    (hnew : ∀ call cell answer, new ≠ .answered call cell answer)
    (hempty : ∀ cell, new.unanswered = some cell → slot cell = none)
    (hleaving : ∀ call cell answer, new = .leaving call cell (.ok answer) →
      slot cell = some answer) :
    Answers (update stage t new) cells slot history where
  empty {t' cell} hstage := by
    rcases Transition.update_cases (fun st => Stage.unanswered st = some cell) hstage with
      ⟨-, hnow⟩ | ⟨-, hbefore⟩
    · exact hempty cell hnow
    · exact h.empty hbefore
  leaving {t' call cell answer} hstage := by
    rcases Transition.update_cases (· = Stage.leaving call cell (.ok answer)) hstage with
      ⟨-, hnow⟩ | ⟨-, hbefore⟩
    · exact hleaving call cell answer hnow
    · exact h.leaving hbefore
  pending {t' call cell answer} hstage := by
    rcases Transition.update_cases (· = Stage.answered call cell answer) hstage with
      ⟨-, hnow⟩ | ⟨-, hbefore⟩
    · exact absurd hnow (hnew call cell answer)
    · exact h.pending hbefore
  stored := h.stored
  kept {t' call answer} hmem := by
    obtain ⟨cell, hcell, hslot | hstage⟩ := h.kept hmem
    · exact ⟨cell, hcell, .inl hslot⟩
    · exact ⟨cell, hcell, .inr (Transition.update_keeps hstage (hold call cell answer))⟩
  once := h.once

/-- Something else happens than a question to git. -/
lemma note (h : Answers stage cells slot history) {event : Happened T U A E}
    (hevent : ∀ key, ¬event.asks key) : Answers stage cells slot (event :: history) where
  empty := h.empty
  leaving := h.leaving
  pending hstage := List.mem_cons_of_mem _ (h.pending hstage)
  stored hcell hslot := by
    obtain ⟨t, call, hkey, hmem⟩ := h.stored hcell hslot
    exact ⟨t, call, hkey, List.mem_cons_of_mem _ hmem⟩
  kept {t call answer} hmem := by
    rcases List.mem_cons.mp hmem with rfl | hmem
    · exact absurd rfl (hevent call.key)
    · exact h.kept hmem
  once := List.pairwise_cons.mpr ⟨fun earlier _ key _ => hevent key, h.once⟩

/-- A new slot is empty. -/
lemma create [DecidableEq U] (h : Answers stage cells slot history)
    (hslots : Slotted stage cells nextCell) {key : ℕ × U} (hnone : cells key = none) :
    Answers stage (update cells key (some nextCell)) (update slot nextCell none) history := by
  have hne : ∀ {key' cell}, cells key' = some cell → cell ≠ nextCell ∧ key' ≠ key := by
    intro key' cell hcell
    refine ⟨Nat.ne_of_lt (hslots.lt hcell), ?_⟩
    rintro rfl
    rw [hnone] at hcell
    cases hcell
  have hlooked : ∀ {t call cell}, (stage t).looked = some (call, cell) → cell ≠ nextCell :=
    fun h => (hne (hslots.looked h)).1
  refine ⟨?_, ?_, h.pending, ?_, ?_, h.once⟩
  · intro t cell hstage
    obtain ⟨call, hcall⟩ := Stage.looked_of_heldSlot (Stage.heldSlot_of_unanswered hstage)
    rw [Function.update_of_ne (hlooked hcall)]
    exact h.empty hstage
  · intro t call cell answer hstage
    have hcall : (stage t).looked = some (call, cell) := by
      rw [hstage]
      rfl
    rw [Function.update_of_ne (hlooked hcall)]
    exact h.leaving hstage
  · intro key' cell answer hcell hslot
    rcases Transition.update_cases (· = some answer) hslot with ⟨-, hnow⟩ | ⟨hold, hslot⟩
    · cases hnow
    · rcases Transition.update_cases (· = some cell) hcell with ⟨-, hnow⟩ | ⟨-, hcell⟩
      · exact absurd (Option.some.inj hnow).symm hold
      · exact h.stored hcell hslot
  · intro t call answer hmem
    obtain ⟨cell, hcell, hkept⟩ := h.kept hmem
    obtain ⟨hcellNe, hkeyNe⟩ := hne hcell
    refine ⟨cell, ?_, ?_⟩
    · rw [Function.update_of_ne hkeyNe]
      exact hcell
    · rwa [Function.update_of_ne hcellNe]

/-- While a thread has locked an empty slot and no answer to store, git has not answered. -/
lemma not_answers {slotOwner : ℕ → Option T} (h : Answers stage cells slot history)
    (hslots : Slotted stage cells nextCell) (hlocks : Owned Stage.heldSlot slotOwner stage) {t : T}
    {call : Call U} {cell : ℕ} (hlooked : (stage t).looked = some (call, cell))
    (hheld : (stage t).heldSlot = some cell) (hempty : slot cell = none)
    (hstage : ∀ call cell answer, stage t ≠ .answered call cell answer) :
    ∀ earlier ∈ history, ¬earlier.answers call.key := by
  intro earlier hmem hanswers
  cases earlier with
  | answered t' call' answer =>
    obtain ⟨cell', hcell', hkept⟩ := h.kept hmem
    have hkey : call'.key = call.key := hanswers
    rw [hkey, hslots.looked hlooked] at hcell'
    obtain rfl : cell = cell' := Option.some.inj hcell'
    rcases hkept with hslot | hpending
    · rw [hempty] at hslot
      cases hslot
    · have hheld' : (stage t').heldSlot = some cell := by
        rw [hpending]
        rfl
      obtain rfl : t = t' := hlocks.exclusive hheld hheld'
      exact hstage _ _ _ hpending
  | _ => exact hanswers

/-- Git is asked. -/
lemma ask (h : Answers stage cells slot history) {t : T} {call : Call U}
    (hnone : ∀ earlier ∈ history, ¬earlier.answers call.key) :
    Answers stage cells slot (.spawned t call :: history) where
  empty := h.empty
  leaving := h.leaving
  pending hstage := List.mem_cons_of_mem _ (h.pending hstage)
  stored hcell hslot := by
    obtain ⟨t, call, hkey, hmem⟩ := h.stored hcell hslot
    exact ⟨t, call, hkey, List.mem_cons_of_mem _ hmem⟩
  kept {t call answer} hmem := by
    rcases List.mem_cons.mp hmem with heq | hmem
    · cases heq
    · exact h.kept hmem
  once := List.pairwise_cons.mpr ⟨fun earlier hmem key hanswers hasks => by
    obtain rfl : call.key = key := hasks
    exact hnone earlier hmem hanswers, h.once⟩

/-- Git answers. -/
lemma answer [DecidableEq T] (h : Answers stage cells slot history) {t : T} {call : Call U}
    {cell : ℕ} (hstage : stage t = .spawning call cell) (hcell : cells call.key = some cell)
    (hnone : ∀ earlier ∈ history, ¬earlier.answers call.key) (answer : A) :
    Answers (update stage t (.answered call cell answer)) cells slot
      (.answered t call answer :: history) where
  empty {t' cell'} hempty := by
    rcases Transition.update_cases (fun st => Stage.unanswered st = some cell') hempty with
      ⟨-, hnow⟩ | ⟨-, hbefore⟩
    · exact h.empty (by rw [hstage]; exact hnow)
    · exact h.empty hbefore
  leaving {t' call' cell' answer'} hleaving := by
    rcases Transition.update_cases (· = Stage.leaving call' cell' (.ok answer')) hleaving with
      ⟨-, hnow⟩ | ⟨-, hbefore⟩
    · cases hnow
    · exact h.leaving hbefore
  pending {t' call' cell' answer'} hpending := by
    rcases Transition.update_cases (· = Stage.answered call' cell' answer') hpending with
      ⟨rfl, hnow⟩ | ⟨-, hbefore⟩
    · cases hnow
      exact List.mem_cons_self ..
    · exact List.mem_cons_of_mem _ (h.pending hbefore)
  stored hcell' hslot := by
    obtain ⟨t', call', hkey, hmem⟩ := h.stored hcell' hslot
    exact ⟨t', call', hkey, List.mem_cons_of_mem _ hmem⟩
  kept {t' call' answer'} hmem := by
    rcases List.mem_cons.mp hmem with heq | hmem
    · cases heq
      exact ⟨cell, hcell, .inr (Function.update_self ..)⟩
    · obtain ⟨cell', hcell', hslot | hpending⟩ := h.kept hmem
      · exact ⟨cell', hcell', .inl hslot⟩
      · exact ⟨cell', hcell', .inr (Transition.update_keeps hpending (by simp [hstage]))⟩
  once := List.pairwise_cons.mpr ⟨fun earlier hmem key hanswers hasks => by
    obtain rfl : call.key = key := hasks
    exact hnone earlier hmem hanswers, h.once⟩

/-- The answer is stored. -/
lemma store [DecidableEq T] {slotOwner : ℕ → Option T} (h : Answers stage cells slot history)
    (hslots : Slotted stage cells nextCell) (hlocks : Owned Stage.heldSlot slotOwner stage) {t : T}
    {call : Call U} {cell : ℕ} {answer : A} (hstage : stage t = .answered call cell answer) :
    Answers (update stage t (.leaving call cell (.ok answer))) cells
      (update slot cell (some answer)) history := by
  have hcell : cells call.key = some cell := hslots.looked (by rw [hstage]; rfl)
  have hheld : (stage t).heldSlot = some cell := by
    rw [hstage]
    rfl
  have hempty : slot cell = none := h.empty (by rw [hstage]; rfl)
  -- whoever else has a slot locked has another one
  have hother : ∀ {t' cell'}, t' ≠ t → (stage t').heldSlot = some cell' → cell' ≠ cell := by
    rintro t' cell' hne hheld' rfl
    exact hne (hlocks.exclusive hheld' hheld)
  refine ⟨?_, ?_, ?_, ?_, ?_, h.once⟩
  · intro t' cell' hstage'
    rcases Transition.update_cases (fun st => Stage.unanswered st = some cell') hstage' with
      ⟨-, hnow⟩ | ⟨hne, hbefore⟩
    · cases hnow
    · rw [Function.update_of_ne (hother hne (Stage.heldSlot_of_unanswered hbefore))]
      exact h.empty hbefore
  · intro t' call' cell' answer' hstage'
    rcases Transition.update_cases (· = Stage.leaving call' cell' (.ok answer')) hstage' with
      ⟨-, hnow⟩ | ⟨hne, hbefore⟩
    · cases hnow
      exact Function.update_self ..
    · rw [Function.update_of_ne (hother hne (by rw [hbefore]; rfl))]
      exact h.leaving hbefore
  · intro t' call' cell' answer' hstage'
    rcases Transition.update_cases (· = Stage.answered call' cell' answer') hstage' with
      ⟨-, hnow⟩ | ⟨-, hbefore⟩
    · cases hnow
    · exact h.pending hbefore
  · intro key cell' answer' hcell' hslot
    rcases Transition.update_cases (· = some answer') hslot with ⟨hsame, hnow⟩ | ⟨-, hslot⟩
    · subst hsame
      obtain rfl := Option.some.inj hnow
      exact ⟨t, call, hslots.injective hcell hcell', h.pending hstage⟩
    · exact h.stored hcell' hslot
  · intro t' call' answer' hmem
    obtain ⟨cell', hcell', hkept⟩ := h.kept hmem
    refine ⟨cell', hcell', ?_⟩
    rcases hkept with hslot | hpending
    · have hne : cell' ≠ cell := by
        rintro rfl
        rw [hempty] at hslot
        cases hslot
      exact .inl (by rw [Function.update_of_ne hne]; exact hslot)
    · by_cases hne : t' = t
      · subst hne
        rw [hstage] at hpending
        cases hpending
        exact .inl (Function.update_self ..)
      · exact .inr (by rw [Function.update_of_ne hne]; exact hpending)

end Answers

/-- A step keeps what is said of the answers. -/
lemma Answers.step [DecidableEq T] [DecidableEq U] (hlocks : Locked s)
    (hslots : Slotted s.stage s.cells s.nextCell)
    (h : Answers s.stage s.cells s.slot s.history) (hstep : Step s s') :
    Answers s'.stage s'.cells s'.slot s'.history := by
  cases hstep with
  | clone => exact h
  | call _ hstage | lockMap hstage | lookup hstage | unlockMap hstage | lockSlot hstage =>
    exact h.become (by simp [hstage]) (by simp) (fun _ hnone => nomatch hnone) (by simp)
  | create hstage hnone =>
    exact (h.create hslots hnone).become (by simp [hstage]) (by simp)
      (fun _ hnone => nomatch hnone) (by simp)
  | @hit t call cell answer hstage hslot =>
    refine h.become (by simp [hstage]) (by simp) (fun _ hnone => nomatch hnone) ?_
    rintro call' cell' answer' heq
    cases heq
    exact hslot
  | @miss t call cell hstage hempty =>
    have hnone := h.not_answers hslots hlocks.slot (by rw [hstage]; rfl) (by rw [hstage]; rfl)
      hempty (by simp [hstage])
    refine (h.ask hnone).become (by simp [hstage]) (by simp) ?_ (by simp)
    rintro cell' heq
    cases heq
    exact hempty
  | @answer t call cell answer hstage =>
    have hempty : s.slot cell = none := h.empty (by rw [hstage]; rfl)
    have hnone := h.not_answers hslots hlocks.slot (by rw [hstage]; rfl) (by rw [hstage]; rfl)
      hempty (by simp [hstage])
    exact h.answer hstage (hslots.looked (by rw [hstage]; rfl)) hnone answer
  | @fail t call cell error hstage =>
    have hempty : s.slot cell = none := h.empty (by rw [hstage]; rfl)
    have hnote : Answers s.stage s.cells s.slot (.failed t call error :: s.history) :=
      h.note fun key hasks => hasks
    refine hnote.become (by simp [hstage]) (by simp) ?_ (by simp)
    rintro cell' heq
    cases heq
    exact hempty
  | store hstage => exact h.store hslots hlocks.slot hstage
  | @unlockSlot t call cell result hstage =>
    have hnote : Answers s.stage s.cells s.slot (.returned t call result :: s.history) :=
      h.note fun key hasks => hasks
    exact hnote.become (by simp [hstage]) (by simp) (fun _ hnone => nomatch hnone) (by simp)
  | unwind hstage =>
    exact h.become (by simp [hstage]) (by simp) (fun _ hnone => nomatch hnone) (by simp)

/-! ## Returns -/

/-- A call returns what git has answered for its URL, or the error of its own question. -/
structure Told (stage : T → Stage U A E) (history : List (Happened T U A E)) : Prop where
  leaving : ∀ {t call cell error}, stage t = .leaving call cell (.error error) →
    .failed t call error ∈ history
  failed : ∀ {t call error}, .failed t call error ∈ history →
    (∃ cell, stage t = .leaving call cell (.error error)) ∨
      .returned t call (.error error) ∈ history
  error : ∀ {t call error}, .returned t call (.error error) ∈ history →
    .failed t call error ∈ history
  ok : ∀ {t call answer}, .returned t call (.ok answer) ∈ history →
    ∃ t' call', call'.key = call.key ∧ .answered t' call' answer ∈ history

namespace Told

variable {history : List (Happened T U A E)}

/-- A thread goes on that leaves with no error. -/
lemma become [DecidableEq T] (h : Told stage history) {t : T} {new : Stage U A E}
    (hold : ∀ call cell error, stage t ≠ .leaving call cell (.error error))
    (hnew : ∀ call cell error, new ≠ .leaving call cell (.error error)) :
    Told (update stage t new) history where
  leaving {t' call cell error} hstage := by
    rcases Transition.update_cases (· = Stage.leaving call cell (.error error)) hstage with
      ⟨-, hnow⟩ | ⟨-, hbefore⟩
    · exact absurd hnow (hnew call cell error)
    · exact h.leaving hbefore
  failed {t' call error} hmem := by
    rcases h.failed hmem with ⟨cell, hstage⟩ | hreturned
    · exact .inl ⟨cell, Transition.update_keeps hstage (hold call cell error)⟩
    · exact .inr hreturned
  error := h.error
  ok := h.ok

/-- Something happens that is no failure and no return. -/
lemma note (h : Told stage history) {event : Happened T U A E}
    (hfailed : ∀ t call error, event ≠ .failed t call error)
    (hreturned : ∀ t call result, event ≠ .returned t call result) :
    Told stage (event :: history) where
  leaving hstage := List.mem_cons_of_mem _ (h.leaving hstage)
  failed {t call error} hmem := by
    have hmem := (List.mem_cons.mp hmem).resolve_left (hfailed t call error).symm
    exact (h.failed hmem).imp_right (List.mem_cons_of_mem _)
  error {t call error} hmem := by
    have hmem := (List.mem_cons.mp hmem).resolve_left (hreturned t call (.error error)).symm
    exact List.mem_cons_of_mem _ (h.error hmem)
  ok {t call answer} hmem := by
    have hmem := (List.mem_cons.mp hmem).resolve_left (hreturned t call (.ok answer)).symm
    obtain ⟨t', call', hkey, hanswered⟩ := h.ok hmem
    exact ⟨t', call', hkey, List.mem_cons_of_mem _ hanswered⟩

/-- Git fails. -/
lemma fail [DecidableEq T] (h : Told stage history) {t : T} {call : Call U} {cell : ℕ}
    (hstage : stage t = .spawning call cell) (error : E) :
    Told (update stage t (.leaving call cell (.error error)))
      (.failed t call error :: history) where
  leaving {t' call' cell' error'} hleaving := by
    rcases Transition.update_cases (· = Stage.leaving call' cell' (.error error')) hleaving with
      ⟨rfl, hnow⟩ | ⟨-, hbefore⟩
    · cases hnow
      exact List.mem_cons_self ..
    · exact List.mem_cons_of_mem _ (h.leaving hbefore)
  failed {t' call' error'} hmem := by
    rcases List.mem_cons.mp hmem with heq | hmem
    · cases heq
      exact .inl ⟨cell, Function.update_self ..⟩
    · rcases h.failed hmem with ⟨cell', hleaving⟩ | hreturned
      · exact .inl ⟨cell', Transition.update_keeps hleaving (by simp [hstage])⟩
      · exact .inr (List.mem_cons_of_mem _ hreturned)
  error {t' call' error'} hmem := by
    have hmem := (List.mem_cons.mp hmem).resolve_left (by simp)
    exact List.mem_cons_of_mem _ (h.error hmem)
  ok {t' call' answer} hmem := by
    have hmem := (List.mem_cons.mp hmem).resolve_left (by simp)
    obtain ⟨t'', call'', hkey, hanswered⟩ := h.ok hmem
    exact ⟨t'', call'', hkey, List.mem_cons_of_mem _ hanswered⟩

/-- A call returns. -/
lemma return_ [DecidableEq T] (h : Told stage history) {t : T} {call : Call U} {cell : ℕ}
    {result : Except E A} (hstage : stage t = .leaving call cell result)
    (hok : ∀ answer, result = .ok answer →
      ∃ t' call', call'.key = call.key ∧ .answered t' call' answer ∈ history) :
    Told (update stage t .idle) (.returned t call result :: history) where
  leaving {t' call' cell' error} hleaving := by
    rcases Transition.update_cases (· = Stage.leaving call' cell' (.error error)) hleaving with
      ⟨-, hnow⟩ | ⟨-, hbefore⟩
    · cases hnow
    · exact List.mem_cons_of_mem _ (h.leaving hbefore)
  failed {t' call' error} hmem := by
    have hmem := (List.mem_cons.mp hmem).resolve_left (by simp)
    rcases h.failed hmem with ⟨cell', hleaving⟩ | hreturned
    · by_cases hne : t' = t
      · subst hne
        rw [hstage] at hleaving
        cases hleaving
        exact .inr (List.mem_cons_self ..)
      · exact .inl ⟨cell', by rw [Function.update_of_ne hne]; exact hleaving⟩
    · exact .inr (List.mem_cons_of_mem _ hreturned)
  error {t' call' error} hmem := by
    rcases List.mem_cons.mp hmem with heq | hmem
    · cases heq
      exact List.mem_cons_of_mem _ (h.leaving hstage)
    · exact List.mem_cons_of_mem _ (h.error hmem)
  ok {t' call' answer} hmem := by
    rcases List.mem_cons.mp hmem with heq | hmem
    · cases heq
      obtain ⟨t'', call'', hkey, hanswered⟩ := hok answer rfl
      exact ⟨t'', call'', hkey, List.mem_cons_of_mem _ hanswered⟩
    · obtain ⟨t'', call'', hkey, hanswered⟩ := h.ok hmem
      exact ⟨t'', call'', hkey, List.mem_cons_of_mem _ hanswered⟩

end Told

/-- A step keeps what callers have been told. -/
lemma Told.step [DecidableEq T] [DecidableEq U] (hslots : Slotted s.stage s.cells s.nextCell)
    (hanswers : Answers s.stage s.cells s.slot s.history) (h : Told s.stage s.history)
    (hstep : Step s s') : Told s'.stage s'.history := by
  cases hstep with
  | clone => exact h
  | call _ hstage | lockMap hstage | lookup hstage | create hstage | unlockMap hstage
  | lockSlot hstage | hit hstage | store hstage | unwind hstage =>
    exact h.become (by simp [hstage]) (by simp)
  | @miss t call cell hstage =>
    have hnote : Told s.stage (.spawned t call :: s.history) := h.note (by simp) (by simp)
    exact hnote.become (by simp [hstage]) (by simp)
  | @answer t call cell answer hstage =>
    have hnote : Told s.stage (.answered t call answer :: s.history) := h.note (by simp) (by simp)
    exact hnote.become (by simp [hstage]) (by simp)
  | fail error hstage => exact h.fail hstage error
  | @unlockSlot t call cell result hstage =>
    refine h.return_ hstage ?_
    rintro answer rfl
    exact hanswers.stored (hslots.looked (by rw [hstage]; rfl)) (hanswers.leaving hstage)

/-! ## The memo of the clones -/

/-- Every snapshot and every call use the memo of the first snapshot. -/
structure OneMemo (s : Shared T U A E) : Prop where
  snapshots : ∀ m ∈ s.snapshots, m = 0
  stage : ∀ {t call}, (s.stage t).call? = some call → call.memo = 0
  history : ∀ event ∈ s.history, event.call.memo = 0

/-- A thread goes on with its call. -/
lemma OneMemo.become [DecidableEq T] (h : OneMemo s) {t : T} {new : Stage U A E}
    (hnew : ∀ call, new.call? = some call → (s.stage t).call? = some call) {t' : T} {call : Call U}
    (hcall : (update s.stage t new t').call? = some call) : call.memo = 0 := by
  rcases Transition.update_cases (fun st => Stage.call? st = some call) hcall with
    ⟨-, hnow⟩ | ⟨-, hbefore⟩
  · exact h.stage (hnew call hnow)
  · exact h.stage hbefore

/-- After a step there is still one memo. -/
lemma OneMemo.step [DecidableEq T] [DecidableEq U] (h : OneMemo s) (hstep : Step s s') :
    OneMemo s' := by
  cases hstep with
  | @clone m hmem =>
    refine ⟨fun m' hm' => ?_, h.stage, h.history⟩
    rcases List.mem_append.mp hm' with hm' | hm'
    · exact h.snapshots m' hm'
    · obtain rfl := List.mem_singleton.mp hm'
      exact h.snapshots m' hmem
  | @call t m url hstage hmem =>
    refine ⟨h.snapshots, ?_, h.history⟩
    intro t' call hcall
    rcases Transition.update_cases (fun st => Stage.call? st = some call) hcall with
      ⟨-, hnow⟩ | ⟨-, hbefore⟩
    · cases hnow
      exact h.snapshots m hmem
    · exact h.stage hbefore
  | lockMap hstage | lookup hstage | create hstage | unlockMap hstage | lockSlot hstage
  | hit hstage | store hstage =>
    exact ⟨h.snapshots, h.become fun call hnow => by rw [hstage]; exact hnow, h.history⟩
  | miss hstage | answer _ hstage | fail _ hstage =>
    exact ⟨h.snapshots, h.become fun call hnow => by rw [hstage]; exact hnow,
      List.forall_mem_cons.mpr ⟨h.stage (by rw [hstage]; rfl), h.history⟩⟩
  | unlockSlot hstage =>
    exact ⟨h.snapshots, h.become fun _ hnow => (by cases hnow),
      List.forall_mem_cons.mpr ⟨h.stage (by rw [hstage]; rfl), h.history⟩⟩
  | unwind hstage => exact ⟨h.snapshots, h.become fun _ hnow => (by cases hnow), h.history⟩

/-! ## The memo -/

/-- Everything at once. -/
structure Inv (s : Shared T U A E) : Prop where
  locked : Locked s
  slotted : Slotted s.stage s.cells s.nextCell
  answers : Answers s.stage s.cells s.slot s.history
  told : Told s.stage s.history
  oneMemo : OneMemo s

/-- The invariant holds initially. -/
lemma Initial.inv (h : Initial s) : Inv s := by
  obtain ⟨hsnapshots, hmap, hcells, hslot, hstage, hhistory⟩ := h
  have hnone : ∀ {β : Type} {f : Stage U A E → Option β} {t : T} {b : β}, f .idle = none →
      f (s.stage t) = some b → False := by
    intro β f t b hidle hsome
    rw [hstage, hidle] at hsome
    cases hsome
  have hmem : ∀ {event}, event ∈ s.history → False := by
    intro event hevent
    rw [hhistory] at hevent
    cases hevent
  have hcell : ∀ {key cell}, s.cells key = some cell → False := by
    intro key cell hsome
    rw [hcells] at hsome
    cases hsome
  refine ⟨⟨?_, ?_⟩, ⟨?_, ?_, ?_⟩, ⟨?_, ?_, ?_, ?_, ?_, ?_⟩, ⟨?_, ?_, ?_, ?_⟩, ⟨?_, ?_, ?_⟩⟩
  · intro m t
    rw [hmap, hstage]
    exact iff_of_false (by simp) (by simp [Stage.heldMap])
  · intro c t
    rw [hslot, hstage]
    exact iff_of_false (by simp) (by simp [Stage.heldSlot])
  · exact fun h => (hnone rfl h).elim
  · exact fun h => (hcell h).elim
  · exact fun h => (hcell h).elim
  · exact fun h => (hnone rfl h).elim
  · exact fun {t} _ _ _ h => by simp [hstage t] at h
  · exact fun {t} _ _ _ h => by simp [hstage t] at h
  · exact fun h => (hcell h).elim
  · exact fun h => (hmem h).elim
  · rw [hhistory]
    exact .nil
  · exact fun {t} _ _ _ h => by simp [hstage t] at h
  · exact fun h => (hmem h).elim
  · exact fun h => (hmem h).elim
  · exact fun h => (hmem h).elim
  · intro m hm
    rw [hsnapshots] at hm
    exact List.mem_singleton.mp hm
  · exact fun h => (hnone rfl h).elim
  · exact fun event h => (hmem h).elim

/-- The invariant holds in every reachable state. -/
lemma inv_of_reachable [DecidableEq T] [DecidableEq U] (h : Reachable Initial Step s) : Inv s :=
  h.invariant (fun _ => Initial.inv) fun _ _ _ h hstep =>
    ⟨h.locked.step hstep, h.slotted.step hstep, h.answers.step h.locked h.slotted hstep,
      h.told.step h.slotted h.answers hstep, h.oneMemo.step hstep⟩

/-- What the memo promises, of all the snapshots together. -/
structure Memoized (s : Shared T U A E) : Prop where
  /-- Once git has answered for a URL, it is not asked for it, and does not answer, again. -/
  once : s.history.Pairwise fun later earlier =>
    ∀ {t call answer}, earlier = .answered t call answer →
      (∀ t' call', later = .spawned t' call' → call'.url ≠ call.url) ∧
      ∀ t' call' answer', later = .answered t' call' answer' → call'.url ≠ call.url
  /-- A call that succeeds returns what git has answered for its URL. -/
  ok : ∀ {t call answer}, .returned t call (.ok answer) ∈ s.history →
    ∃ t' call', call'.url = call.url ∧ .answered t' call' answer ∈ s.history
  /-- A call that fails returns the error of its own question. -/
  error : ∀ {t call error}, .returned t call (.error error) ∈ s.history →
    .failed t call error ∈ s.history
  /-- A call whose question has failed returns the error, and until then its slot is empty. -/
  failed : ∀ {t call error}, .failed t call error ∈ s.history →
    (∃ cell, s.stage t = .leaving call cell (.error error) ∧ s.slot cell = none) ∨
      .returned t call (.error error) ∈ s.history
  /-- A call waits for, locks and reads the slot of its URL. -/
  ownSlot : ∀ {t call cell}, (s.stage t).looked = some (call, cell) →
    s.cells (0, call.url) = some cell
  /-- Different URLs have different slots. -/
  apart : ∀ {url url' cell}, s.cells (0, url) = some cell → s.cells (0, url') = some cell →
    url = url'
  /-- Who has locked a slot is a call for its URL. -/
  slotOwner : ∀ {t cell}, s.slotOwner cell = some t →
    ∃ call, (s.stage t).looked = some (call, cell)
  /-- Who has locked the map has locked no slot, and is not about to. -/
  mapOwner : ∀ {t m}, s.mapOwner m = some t →
    ∃ call, s.stage t = .inMap call ∨ ∃ cell, s.stage t = .found call cell

/-- Whatever calls any number of threads make on a snapshot and its clones, in whatever order their
steps come, git answers once for each URL, and each call gets the answer of its own. -/
theorem memoized [DecidableEq T] [DecidableEq U] (h : Reachable Initial Step s) : Memoized s := by
  obtain ⟨hlocked, hslotted, hanswers, htold, hone⟩ := inv_of_reachable h
  refine ⟨?_, ?_, htold.error, ?_, ?_, ?_, ?_, ?_⟩
  · refine hanswers.once.imp_of_mem fun {later earlier} hlater hearlier honce => ?_
    rintro t call answer rfl
    have hasks : ¬later.asks call.key := honce call.key rfl
    have hmemo : later.call.memo = call.memo :=
      (hone.history _ hlater).trans (hone.history _ hearlier).symm
    constructor
    · rintro t' call' rfl hurl
      exact hasks (Prod.ext hmemo hurl)
    · rintro t' call' answer' rfl hurl
      exact hasks (Prod.ext hmemo hurl)
  · intro t call answer hmem
    obtain ⟨t', call', hsame, hanswered⟩ := htold.ok hmem
    exact ⟨t', call', congrArg Prod.snd hsame, hanswered⟩
  · intro t call error hmem
    refine (htold.failed hmem).imp_left fun ⟨cell, hstage⟩ => ⟨cell, hstage, ?_⟩
    exact hanswers.empty (by rw [hstage]; rfl)
  · intro t call cell hlooked
    have hmemo : call.memo = 0 := hone.stage (Stage.call?_of_looked hlooked)
    rw [← hmemo]
    exact hslotted.looked hlooked
  · intro url url' cell hcell hcell'
    exact congrArg Prod.snd (hslotted.injective hcell hcell')
  · intro t cell howner
    exact Stage.looked_of_heldSlot ((hlocked.slot cell t).mp howner)
  · intro t m howner
    have hheld := (hlocked.map m t).mp howner
    cases hstage : s.stage t with
    | inMap call => exact ⟨call, .inl rfl⟩
    | found call cell => exact ⟨call, .inr ⟨cell, rfl⟩⟩
    | _ =>
      rw [hstage] at hheld
      cases hheld

/-- Two threads ask for one URL; git is asked once. -/
theorem memoized_two_threads :
    ∃ s : Shared Bool ℕ ℕ Unit,
      s.history = [.returned true ⟨0, 5, 0⟩ (.ok 7), .returned false ⟨0, 5, 0⟩ (.ok 7),
        .answered false ⟨0, 5, 0⟩ 7, .spawned false ⟨0, 5, 0⟩] ∧ Memoized s := by
  let start : Shared Bool ℕ ℕ Unit :=
    ⟨[0], fun _ => none, fun _ => none, 0, fun _ => none, fun _ => none, fun _ => .idle,
      fun _ => 0, []⟩
  have h₀ : Reachable Initial Step start :=
    .initial ⟨rfl, fun _ => rfl, fun _ => rfl, fun _ => rfl, fun _ => rfl, rfl⟩
  have h₁ := ((((h₀.tail (.call (t := false) (m := 0) 5 rfl (by decide))).tail
    (.lockMap (t := false) rfl rfl)).tail (.create (t := false) rfl rfl)).tail
    (.unlockMap (t := false) rfl))
  -- the other thread finds the slot while git runs, and waits
  have h₂ := (((h₁.tail (.lockSlot (t := false) rfl rfl)).tail (.miss (t := false) rfl rfl)).tail
    (.call (t := true) (m := 0) 5 rfl (by decide))).tail (.lockMap (t := true) rfl rfl)
  have h₃ := ((((h₂.tail (.lookup (t := true) rfl rfl)).tail (.unlockMap (t := true) rfl)).tail
    (.answer (t := false) 7 rfl)).tail (.store (t := false) rfl)).tail
    (.unlockSlot (t := false) rfl)
  have h₄ := ((h₃.tail (.lockSlot (t := true) rfl rfl)).tail (.hit (t := true) rfl rfl)).tail
    (.unlockSlot (t := true) rfl)
  exact ⟨_, rfl, memoized h₄⟩

end Shared

end Machine

end Config

end Scap
