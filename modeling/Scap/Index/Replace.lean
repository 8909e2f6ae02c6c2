import Scap.Clone.Machine
import Scap.Foundations.FileStore
import Scap.Index.CacheDir

/-!
# Replacing an index file

`write_atomically` (`src/index.rs`), step by step, with any number of processes that write and read
index files in one directory at once: the temporary file is created, filled piece by piece and
renamed.  A process may die and a call may fail at any step, process identifiers are used again once
a process is gone, and files may be removed under it all.

Every finished read of an index file holds the contents that were there first, or all of the bytes
one call was asked to write (`index_read_whole`).
-/

namespace Scap

namespace Replace

open Function (update)

/-! ## The steps -/

/-- A call of `write_atomically`. -/
structure Call where
  path : Bytes
  bytes : Bytes

/-- The temporary file of a call, in the same directory. -/
def tmpPath (path : Bytes) (pid : ℕ) : Bytes :=
  path ++ (0x2e :: toBytes (Clone.decimal pid)) ++ ascii ".tmp".toList

/-- Where a process stands. -/
inductive Phase where
  /-- Not in a call. -/
  | idle
  /-- Before the temporary file is created. -/
  | creating (c : Call)
  /-- The temporary file is open, and these bytes have still to be written. -/
  | writing (c : Call) (file : ℕ) (rest : Bytes)
  /-- The temporary file is written and closed. -/
  | written (c : Call)
  /-- The call has failed; before the temporary file is removed. -/
  | cleaning (c : Call)

/-- Where a reader stands. -/
inductive Reading where
  | idle
  /-- The file is open, and this was read so far. -/
  | reading (path : Bytes) (file : ℕ) (got : Bytes)
  /-- The end was reached. -/
  | finished (path : Bytes) (got : Bytes)

/-- The directory, the processes that write and the ones that read. -/
structure State where
  files : FileStore Bytes UInt8
  alive : ℕ → Bool
  phase : ℕ → Phase
  reading : ℕ → Reading
  /-- What was ever asked to be stored: an index, and the root it is of. -/
  asked : List (Bytes × Index)

/-- A process goes to another phase. -/
def State.setPhase (s : State) (p : ℕ) (phase : Phase) : State :=
  { s with phase := update s.phase p phase }

/-- A reader goes on. -/
def State.setReading (s : State) (r : ℕ) (reading : Reading) : State :=
  { s with reading := update s.reading r reading }

/-- The other readers stay where they are. -/
lemma State.reading_setReading_of_ne {s : State} {r k : ℕ} (h : k ≠ r) (reading : Reading) :
    (s.setReading r reading).reading k = s.reading k :=
  Function.update_of_ne h ..

section

variable (cache : Cache) (pid : ℕ → ℕ)

/-- One step of a process, of a reader or of the surroundings. -/
inductive Step : State → State → Prop
  /-- A process starts.  Two processes that are alive have different identifiers. -/
  | start {s : State} (p : ℕ) (hphase : s.phase p = .idle)
      (hpid : ∀ q, s.alive q = true → pid q ≠ pid p) :
      Step s { s with alive := update s.alive p true }
  /-- A process ends, or dies. -/
  | exit {s : State} (p : ℕ) : Step s { s with alive := update s.alive p false }
  /-- `store` calls `write_atomically`. -/
  | call {s : State} (p : ℕ) (root path : Bytes) (index : Index) (halive : s.alive p = true)
      (hphase : s.phase p = .idle) (hpath : cache.pathFor root = some path) :
      Step s { s.setPhase p (.creating ⟨path, index.encode⟩) with
        asked := (root, index) :: s.asked }
  /-- `create_dir_all` fails. -/
  | noDir {s : State} (p : ℕ) (c : Call) (halive : s.alive p = true)
      (hphase : s.phase p = .creating c) : Step s (s.setPhase p .idle)
  /-- The temporary file is created, or emptied. -/
  | create {s : State} (p : ℕ) (c : Call) (halive : s.alive p = true)
      (hphase : s.phase p = .creating c) :
      Step s { s.setPhase p (.writing c (s.files.opened (tmpPath c.path (pid p))) c.bytes) with
        files := s.files.create (tmpPath c.path (pid p)) }
  /-- Some bytes are written. -/
  | write {s : State} (p : ℕ) (c : Call) (file : ℕ) (bytes rest : Bytes) (halive : s.alive p = true)
      (hphase : s.phase p = .writing c file (bytes ++ rest)) :
      Step s { s.setPhase p (.writing c file rest) with files := s.files.append file bytes }
  /-- The temporary file is closed. -/
  | close {s : State} (p : ℕ) (c : Call) (file : ℕ) (halive : s.alive p = true)
      (hphase : s.phase p = .writing c file []) : Step s (s.setPhase p (.written c))
  /-- The temporary file is renamed. -/
  | rename {s : State} (p : ℕ) (c : Call) (file : ℕ) (halive : s.alive p = true)
      (hphase : s.phase p = .written c)
      (hfile : s.files.names (tmpPath c.path (pid p)) = some file) :
      Step s { s.setPhase p .idle with
        files := s.files.rename file (tmpPath c.path (pid p)) c.path }
  /-- Creating, writing or renaming fails. -/
  | fail {s : State} (p : ℕ) (c : Call) (halive : s.alive p = true)
      (hphase : s.phase p = .creating c ∨ (∃ file rest, s.phase p = .writing c file rest) ∨
        s.phase p = .written c) : Step s (s.setPhase p (.cleaning c))
  /-- The temporary file is removed. -/
  | clean {s : State} (p : ℕ) (c : Call) (halive : s.alive p = true)
      (hphase : s.phase p = .cleaning c) :
      Step s { s.setPhase p .idle with files := s.files.unlink (tmpPath c.path (pid p)) }
  /-- The temporary file cannot be removed, which is ignored. -/
  | leave {s : State} (p : ℕ) (c : Call) (halive : s.alive p = true)
      (hphase : s.phase p = .cleaning c) : Step s (s.setPhase p .idle)
  /-- `load` opens the index file of a root. -/
  | openRead {s : State} (r : ℕ) (root path : Bytes) (file : ℕ)
      (hpath : cache.pathFor root = some path) (hfile : s.files.names path = some file) :
      Step s (s.setReading r (.reading path file []))
  /-- Some of what follows is read. -/
  | read {s : State} (r : ℕ) (path : Bytes) (file : ℕ) (got more : Bytes)
      (hreading : s.reading r = .reading path file got)
      (hmore : got ++ more <+: s.files.data file) :
      Step s (s.setReading r (.reading path file (got ++ more)))
  /-- A read returns nothing: as much was read as the file holds. -/
  | finish {s : State} (r : ℕ) (path : Bytes) (file : ℕ) (got : Bytes)
      (hreading : s.reading r = .reading path file got)
      (hend : (s.files.data file).length ≤ got.length) :
      Step s (s.setReading r (.finished path got))
  /-- Somebody removes a file. -/
  | remove {s : State} (path : Bytes) : Step s { s with files := s.files.unlink path }

/-- Some files, and nobody at work. -/
structure Initial (s : State) : Prop where
  tidy : s.files.Tidy
  alive : ∀ p, s.alive p = false
  phase : ∀ p, s.phase p = .idle
  reading : ∀ r, s.reading r = .idle
  asked : s.asked = []

/-- What the file of a name holds. -/
def State.contents (s : State) (path : Bytes) : Option Bytes := s.files.contents path

/-- The bytes are those an index file held in the beginning, or all of those of one index. -/
def Whole (before : State) (asked : List (Bytes × Index)) (path bytes : Bytes) : Prop :=
  before.contents path = some bytes ∨
    ∃ e ∈ asked, cache.pathFor e.1 = some path ∧ bytes = e.2.encode

end

/-! ## Names -/

/-- The temporary file tells the path and the process. -/
lemma tmpPath_injective {path path' : Bytes} {p q : ℕ} (h : tmpPath path p = tmpPath path' q) :
    path = path' ∧ p = q := by
  have hdot : ∀ n, (0x2e : UInt8) ∉ toBytes (Clone.decimal n) := by
    intro n hmem
    rw [mem_toBytes_iff (c := '.') (by decide) (by decide)] at hmem
    have hdigit := Nat.isDigit_of_mem_toDigits (b := 10) (n := n) (by decide) (by decide) hmem
    exact absurd hdigit (by decide)
  have hsplit := congrArg (splitLast 0x2e) (List.append_cancel_right h)
  rw [splitLast_append (hdot p), splitLast_append (hdot q), Option.some.injEq,
    Prod.mk.injEq] at hsplit
  exact ⟨hsplit.1, Clone.decimal_injective (toBytes_injective hsplit.2)⟩

/-- A temporary file is no index file. -/
lemma tmpPath_ne_of_pathFor {cache : Cache} {root path : Bytes}
    (h : cache.pathFor root = some path) (path' : Bytes) (p : ℕ) : tmpPath path' p ≠ path := by
  rintro rfl
  obtain ⟨dir, -, hdir⟩ := Option.map_eq_some_iff.mp h
  have hbin : ascii ".bin".toList <:+ tmpPath path' p := by
    rw [← hdir]
    exact (List.suffix_append ..).trans (Config.suffix_pushBytes ..)
  have htmp : ascii ".tmp".toList <:+ tmpPath path' p := List.suffix_append ..
  exact absurd (List.suffix_of_suffix_length_le hbin htmp (by decide)) (by decide)

/-! ## What every step keeps -/

/-- The call a process is in. -/
def Phase.call : Phase → Option Call
  | .idle => none
  | .creating c | .writing c _ _ | .written c | .cleaning c => some c

section

variable {cache : Cache} {pid : ℕ → ℕ} {before s s' : State}

/-- The invariant: files that are being written are private to their process, and no reader has one
of them open; every other index file, by name or open, is whole. -/
structure Inv (cache : Cache) (pid : ℕ → ℕ) (before s : State) : Prop where
  tidy : s.files.Tidy
  pids : ∀ {p q}, s.alive p = true → s.alive q = true → pid p = pid q → p = q
  calls : ∀ {p c}, s.alive p = true → (s.phase p).call = some c →
    (∃ root, cache.pathFor root = some c.path) ∧ Whole cache before s.asked c.path c.bytes
  writing : ∀ {p c file rest}, s.alive p = true → s.phase p = .writing c file rest →
    s.files.NamedOnly file (tmpPath c.path (pid p)) ∧ s.files.data file ++ rest = c.bytes
  current : ∀ {p c file rest j}, s.alive p = true → s.phase p = .writing c file rest →
    s.files.names (tmpPath c.path (pid p)) = some j → j = file
  apart : ∀ {p q c d file rest rest'}, s.alive p = true → s.alive q = true →
    s.phase p = .writing c file rest → s.phase q = .writing d file rest' → p = q
  unshared : ∀ {p c file rest r path got}, s.alive p = true → s.phase p = .writing c file rest →
    s.reading r ≠ .reading path file got
  written : ∀ {p c file}, s.alive p = true → s.phase p = .written c →
    s.files.names (tmpPath c.path (pid p)) = some file → s.files.data file = c.bytes
  published : ∀ {root path file}, cache.pathFor root = some path →
    s.files.names path = some file → Whole cache before s.asked path (s.files.data file)
  reading : ∀ {r path file got}, s.reading r = .reading path file got →
    (∃ root, cache.pathFor root = some path) ∧ s.files.NamedOnly file path ∧
      got <+: s.files.data file ∧ Whole cache before s.asked path (s.files.data file)
  finished : ∀ {r path got}, s.reading r = .finished path got →
    Whole cache before s.asked path got

/-- What is whole stays whole when more is stored. -/
lemma Whole.cons {asked : List (Bytes × Index)} {path bytes : Bytes} (e : Bytes × Index)
    (h : Whole cache before asked path bytes) : Whole cache before (e :: asked) path bytes :=
  h.imp_right fun ⟨e', he', hpath⟩ => ⟨e', List.mem_cons_of_mem e he', hpath⟩

/-- The invariant holds initially. -/
lemma Initial.inv (h : Initial s) : Inv cache pid s s where
  tidy := h.tidy
  pids hp := absurd hp (by simp [h.alive])
  calls hp := absurd hp (by simp [h.alive])
  writing hp := absurd hp (by simp [h.alive])
  current hp := absurd hp (by simp [h.alive])
  apart hp := absurd hp (by simp [h.alive])
  unshared hp := absurd hp (by simp [h.alive])
  written hp := absurd hp (by simp [h.alive])
  published _ hfile := .inl (by rw [State.contents, FileStore.contents, hfile, Option.map_some])
  reading hr := absurd hr (by simp [h.reading])
  finished hr := absurd hr (by simp [h.reading])

namespace Inv

/-- A process ends, or one with an identifier of its own starts. -/
lemma setAlive (h : Inv cache pid before s) (p : ℕ) (alive : Bool)
    (hphase : alive = true → s.phase p = .idle)
    (hpid : alive = true → ∀ q, s.alive q = true → pid q ≠ pid p) :
    Inv cache pid before { s with alive := update s.alive p alive } := by
  -- Who is alive was alive, or has just started and is idle.
  have hcases : ∀ {q}, update s.alive p alive q = true →
      s.alive q = true ∨ q = p ∧ s.phase q = .idle ∧ ∀ k, s.alive k = true → pid k ≠ pid q := by
    intro q hq
    rcases Transition.update_cases (· = true) hq with ⟨rfl, halive⟩ | ⟨-, halive⟩
    · exact .inr ⟨rfl, hphase halive, hpid halive⟩
    · exact .inl halive
  refine { h with
    pids := ?_, calls := ?_, writing := ?_, current := ?_, apart := ?_, unshared := ?_,
    written := ?_ }
  · intro q k hq hk heq
    rcases hcases hq with hold | ⟨hqp, -, hnew⟩ <;> rcases hcases hk with hold' | ⟨hkp, -, hnew'⟩
    · exact h.pids hold hold' heq
    · exact absurd heq (hnew' q hold)
    · exact absurd heq.symm (hnew k hold')
    · exact hqp.trans hkp.symm
  · intro q c hq hc
    rcases hcases hq with hq | ⟨-, hidle, -⟩
    · exact h.calls hq hc
    · rw [hidle] at hc
      cases hc
  · intro q c file rest hq hc
    rcases hcases hq with hq | ⟨-, hidle, -⟩
    · exact h.writing hq hc
    · exact absurd (hidle.symm.trans hc) (by simp)
  · intro q c file rest j hq hc
    rcases hcases hq with hq | ⟨-, hidle, -⟩
    · exact h.current hq hc
    · exact absurd (hidle.symm.trans hc) (by simp)
  · intro q k c d file rest rest' hq hk hc hd
    rcases hcases hq with hq | ⟨-, hidle, -⟩
    · rcases hcases hk with hk | ⟨-, hidle, -⟩
      · exact h.apart hq hk hc hd
      · exact absurd (hidle.symm.trans hd) (by simp)
    · exact absurd (hidle.symm.trans hc) (by simp)
  · intro q c file rest r path got hq hc
    rcases hcases hq with hq | ⟨-, hidle, -⟩
    · exact h.unshared hq hc
    · exact absurd (hidle.symm.trans hc) (by simp)
  · intro q c file hq hc
    rcases hcases hq with hq | ⟨-, hidle, -⟩
    · exact h.written hq hc
    · exact absurd (hidle.symm.trans hc) (by simp)

/-- A process goes to a phase in which it writes nothing. -/
lemma setPhase (h : Inv cache pid before s) (p : ℕ) {phase : Phase}
    (hcall : ∀ c, phase.call = some c →
      (∃ root, cache.pathFor root = some c.path) ∧ Whole cache before s.asked c.path c.bytes)
    (hwriting : ∀ c file rest, phase ≠ .writing c file rest)
    (hwritten : ∀ c file, phase = .written c →
      s.files.names (tmpPath c.path (pid p)) = some file → s.files.data file = c.bytes) :
    Inv cache pid before (s.setPhase p phase) := by
  have hold : ∀ {q c file rest}, update s.phase p phase q = .writing c file rest →
      s.phase q = .writing c file rest := fun {q c file rest} hc =>
    ((Transition.update_cases (· = Phase.writing c file rest) hc).resolve_left
      fun heq => hwriting _ _ _ heq.2).2
  refine { h with
    calls := ?_
    writing := fun hq hc => h.writing hq (hold hc)
    current := fun hq hc => h.current hq (hold hc)
    apart := fun hq hk hc hd => h.apart hq hk (hold hc) (hold hd)
    unshared := fun hq hc => h.unshared hq (hold hc)
    written := ?_ }
  · intro q c hq hc
    rcases Transition.update_cases (fun phase : Phase => phase.call = some c) hc with
      ⟨rfl, hnew⟩ | ⟨-, hold⟩
    · exact hcall c hnew
    · exact h.calls hq hold
  · intro q c file hq hc hname
    rcases Transition.update_cases (· = Phase.written c) hc with ⟨rfl, hnew⟩ | ⟨-, hold⟩
    · exact hwritten c file hnew hname
    · exact h.written hq hold hname

/-- Removing a file takes nothing from anybody. -/
lemma unlink (h : Inv cache pid before s) (path : Bytes) :
    Inv cache pid before { s with files := s.files.unlink path } where
  tidy := h.tidy.unlink path
  pids := h.pids
  calls := h.calls
  writing hp hc := ⟨(h.writing hp hc).1.unlink path, (h.writing hp hc).2⟩
  current hp hc hname := h.current hp hc (FileStore.names_unlink hname)
  apart := h.apart
  unshared := h.unshared
  written hp hc hname := h.written hp hc (FileStore.names_unlink hname)
  published hpath hname := h.published hpath (FileStore.names_unlink hname)
  reading hr := ⟨(h.reading hr).1, (h.reading hr).2.1.unlink path, (h.reading hr).2.2⟩
  finished := h.finished

/-- One more index is asked to be stored. -/
lemma ask (h : Inv cache pid before s) (e : Bytes × Index) :
    Inv cache pid before { s with asked := e :: s.asked } where
  tidy := h.tidy
  pids := h.pids
  calls hp hc := ⟨(h.calls hp hc).1, (h.calls hp hc).2.cons e⟩
  writing := h.writing
  current := h.current
  apart := h.apart
  unshared := h.unshared
  written := h.written
  published hpath hname := (h.published hpath hname).cons e
  reading hr := ⟨(h.reading hr).1, (h.reading hr).2.1, (h.reading hr).2.2.1,
    (h.reading hr).2.2.2.cons e⟩
  finished hr := (h.finished hr).cons e

/-- A process opens its temporary file: nobody else has that file open. -/
lemma create (h : Inv cache pid before s) {p : ℕ} {c : Call} (hp : s.alive p = true)
    (hc : (s.phase p).call = some c) :
    Inv cache pid before { s.setPhase p (.writing c (s.files.opened (tmpPath c.path (pid p)))
      c.bytes) with files := s.files.create (tmpPath c.path (pid p)) } := by
  have hcases : ∀ {q d file rest}, update s.phase p
      (.writing c (s.files.opened (tmpPath c.path (pid p))) c.bytes) q = .writing d file rest →
      q = p ∧ d = c ∧ file = s.files.opened (tmpPath c.path (pid p)) ∧ rest = c.bytes ∨
        q ≠ p ∧ s.phase q = .writing d file rest := by
    intro q d file rest hd
    rcases Transition.update_cases (· = Phase.writing d file rest) hd with ⟨rfl, heq⟩ | hold
    · cases heq
      exact .inl ⟨rfl, rfl, rfl, rfl⟩
    · exact .inr hold
  -- What others write is named by their own temporary paths, if at all.
  have hothers : ∀ {q d file rest}, q ≠ p → s.alive q = true → s.phase q = .writing d file rest →
      file ≠ s.files.opened (tmpPath c.path (pid p)) := by
    intro q d file rest hne hq hd
    refine (h.writing hq hd).1.ne_opened fun heq => hne (h.pids hq hp ?_)
    exact (tmpPath_injective heq).2
  -- What is read is named by an index path, if at all.
  have hreaders : ∀ {r path file got}, s.reading r = .reading path file got →
      file ≠ s.files.opened (tmpPath c.path (pid p)) := by
    intro r path file got hr
    obtain ⟨⟨root, hpath⟩, hnamed, -⟩ := h.reading hr
    exact hnamed.ne_opened (tmpPath_ne_of_pathFor hpath c.path (pid p)).symm
  refine ⟨h.tidy.create _, h.pids, ?_, ?_, ?_, ?_, ?_, ?_, ?_, ?_, h.finished⟩
  · intro q d hq hd
    rcases Transition.update_cases (fun phase : Phase => phase.call = some d) hd with
      ⟨rfl, hnew⟩ | ⟨-, hold⟩
    · obtain rfl : c = d := Option.some.inj hnew
      exact h.calls hp hc
    · exact h.calls hq hold
  · intro q d file rest hq hd
    rcases hcases hd with ⟨rfl, rfl, rfl, rfl⟩ | ⟨hne, hold⟩
    · exact ⟨h.tidy.namedOnly_opened _, by simp⟩
    · have hother := hothers hne hq hold
      obtain ⟨hnamed, hdata⟩ := h.writing hq hold
      exact ⟨hnamed.create hother, by rw [← hdata, ← FileStore.data_create_of_ne hother]⟩
  · intro q d file rest j hq hd hname
    rcases hcases hd with ⟨rfl, rfl, rfl, -⟩ | ⟨hne, hold⟩
    · exact Option.some.inj (hname.symm.trans (FileStore.names_create_self ..))
    · rcases FileStore.names_create hname with hname | ⟨heq, -⟩
      · exact h.current hq hold hname
      · exact absurd (h.pids hq hp (tmpPath_injective heq).2) hne
  · intro q k d e file rest rest' hq hk hd he
    rcases hcases hd with ⟨rfl, -, rfl, -⟩ | ⟨hne, hold⟩ <;>
      rcases hcases he with ⟨rfl, -, hfile, -⟩ | ⟨hne', hold'⟩
    · rfl
    · exact absurd rfl (hothers hne' hk hold')
    · exact absurd hfile (hothers hne hq hold)
    · exact h.apart hq hk hold hold'
  · intro q d file rest r path got hq hd hr
    rcases hcases hd with ⟨-, -, rfl, -⟩ | ⟨-, hold⟩
    · exact hreaders hr rfl
    · exact h.unshared hq hold hr
  · intro q d file hq hd hname
    obtain ⟨hne, hold⟩ := (Transition.update_cases (· = Phase.written d) hd).resolve_left
      fun heq => nomatch heq.2
    rcases FileStore.names_create hname with hname | ⟨heq, -⟩
    · have hother : file ≠ s.files.opened (tmpPath c.path (pid p)) := by
        refine (h.tidy _ file hname).ne_opened fun heq => hne (h.pids hq hp ?_)
        exact (tmpPath_injective heq).2
      rw [← h.written hq hold hname]
      exact FileStore.data_create_of_ne hother
    · exact absurd (h.pids hq hp (tmpPath_injective heq).2) hne
  · intro root path file hpath hname
    have hne := tmpPath_ne_of_pathFor hpath c.path (pid p)
    obtain hname := (FileStore.names_create hname).resolve_right fun heq => hne heq.1.symm
    have hother := (h.tidy path file hname).ne_opened hne.symm
    rw [FileStore.data_create_of_ne hother]
    exact h.published hpath hname
  · intro r path file got hr
    obtain ⟨hpath, hnamed, hgot, hwhole⟩ := h.reading hr
    have hother := hreaders hr
    rw [FileStore.data_create_of_ne hother]
    exact ⟨hpath, hnamed.create hother, hgot, hwhole⟩

/-- A process writes to its temporary file: nobody else has that file open, and no index file is
that file. -/
lemma write (h : Inv cache pid before s) {p file : ℕ} {c : Call} {bytes rest : Bytes}
    (hp : s.alive p = true) (hc : s.phase p = .writing c file (bytes ++ rest)) :
    Inv cache pid before
      { s.setPhase p (.writing c file rest) with files := s.files.append file bytes } := by
  obtain ⟨hprivate, hwritten⟩ := h.writing hp hc
  have hcases : ∀ {q d i todo}, update s.phase p (.writing c file rest) q = .writing d i todo →
      q = p ∧ d = c ∧ i = file ∧ todo = rest ∨ q ≠ p ∧ s.phase q = .writing d i todo := by
    intro q d i todo hd
    rcases Transition.update_cases (· = Phase.writing d i todo) hd with ⟨rfl, heq⟩ | hold
    · cases heq
      exact .inl ⟨rfl, rfl, rfl, rfl⟩
    · exact .inr hold
  have hothers : ∀ {q d i todo}, q ≠ p → s.alive q = true → s.phase q = .writing d i todo →
      i ≠ file := by
    rintro q d i todo hne hq hd rfl
    exact hne (h.apart hq hp hd hc)
  refine ⟨h.tidy.append _ _, h.pids, ?_, ?_, ?_, ?_, ?_, ?_, ?_, ?_, h.finished⟩
  · intro q d hq hd
    rcases Transition.update_cases (fun phase : Phase => phase.call = some d) hd with
      ⟨rfl, hnew⟩ | ⟨-, hold⟩
    · obtain rfl : c = d := Option.some.inj hnew
      exact h.calls hp (by rw [hc, Phase.call])
    · exact h.calls hq hold
  · intro q d i todo hq hd
    rcases hcases hd with ⟨rfl, rfl, rfl, rfl⟩ | ⟨hne, hold⟩
    · exact ⟨hprivate.append _, by simpa using hwritten⟩
    · obtain ⟨hnamed, hdata⟩ := h.writing hq hold
      exact ⟨hnamed.append _, by rw [← hdata, FileStore.data_append_of_ne (hothers hne hq hold)]⟩
  · intro q d i todo j hq hd hname
    rcases hcases hd with ⟨rfl, rfl, rfl, -⟩ | ⟨-, hold⟩
    · exact h.current hp hc hname
    · exact h.current hq hold hname
  · intro q k d e i todo todo' hq hk hd he
    rcases hcases hd with ⟨rfl, -, rfl, -⟩ | ⟨hne, hold⟩ <;>
      rcases hcases he with ⟨rfl, -, heq, -⟩ | ⟨hne', hold'⟩
    · rfl
    · exact absurd rfl (hothers hne' hk hold')
    · exact absurd heq (hothers hne hq hold)
    · exact h.apart hq hk hold hold'
  · intro q d i todo r path got hq hd
    rcases hcases hd with ⟨rfl, -, rfl, -⟩ | ⟨-, hold⟩
    · exact h.unshared hp hc
    · exact h.unshared hq hold
  · intro q d j hq hd hname
    obtain ⟨hne, hold⟩ := (Transition.update_cases (· = Phase.written d) hd).resolve_left
      fun heq => nomatch heq.2
    have hother : j ≠ file := by
      rintro rfl
      exact hne (h.pids hq hp (tmpPath_injective (hprivate.only _ hname)).2)
    rw [← h.written hq hold hname]
    exact FileStore.data_append_of_ne hother ..
  · intro root path j hpath hname
    have hother : j ≠ file := by
      rintro rfl
      exact tmpPath_ne_of_pathFor hpath _ _ (hprivate.only _ hname).symm
    rw [FileStore.data_append_of_ne hother]
    exact h.published hpath hname
  · intro r path j got hr
    have hother : j ≠ file := by
      rintro rfl
      exact h.unshared hp hc hr
    obtain ⟨hpath, hnamed, hgot, hwhole⟩ := h.reading hr
    rw [FileStore.data_append_of_ne hother]
    exact ⟨hpath, hnamed.append _, hgot, hwhole⟩

/-- A file that nobody writes any more, and that is whole, becomes an index file. -/
lemma rename (h : Inv cache pid before s) {file p : ℕ} {source root path : Bytes}
    (hpath : cache.pathFor root = some path)
    (hfile : s.files.names (tmpPath source p) = some file)
    (hfree : ∀ {q d todo}, s.alive q = true → s.phase q ≠ .writing d file todo)
    (hwhole : Whole cache before s.asked path (s.files.data file)) :
    Inv cache pid before { s with files := s.files.rename file (tmpPath source p) path } where
  tidy := h.tidy.rename hfile
  pids := h.pids
  calls := h.calls
  writing := by
    intro q d i todo hq hd
    obtain ⟨hnamed, hdata⟩ := h.writing hq hd
    refine ⟨hnamed.rename ?_, hdata⟩
    rintro rfl
    exact hfree hq hd
  current := by
    intro q d i todo j hq hd hname
    rcases FileStore.names_rename hname with ⟨heq, -⟩ | ⟨-, hname⟩
    · exact absurd heq (tmpPath_ne_of_pathFor hpath _ _)
    · exact h.current hq hd hname
  apart := h.apart
  unshared := h.unshared
  written := by
    intro q d j hq hd hname
    rcases FileStore.names_rename hname with ⟨heq, -⟩ | ⟨-, hname⟩
    · exact absurd heq (tmpPath_ne_of_pathFor hpath _ _)
    · exact h.written hq hd hname
  published := by
    intro root' path' j hpath' hname
    rcases FileStore.names_rename hname with ⟨rfl, rfl⟩ | ⟨-, hname⟩
    · exact hwhole
    · exact h.published hpath' hname
  reading := by
    intro r path' j got hr
    obtain ⟨⟨root', hpath'⟩, hnamed, hrest⟩ := h.reading hr
    refine ⟨⟨root', hpath'⟩, hnamed.rename ?_, hrest⟩
    rintro rfl
    exact tmpPath_ne_of_pathFor hpath' source p (hnamed.only _ hfile)
  finished := h.finished

/-- A reader goes on with an index file that nobody writes, or is done with one. -/
lemma setReading (h : Inv cache pid before s) (r : ℕ) {reading : Reading}
    (hreading : ∀ path file got, reading = .reading path file got →
      (∃ root, cache.pathFor root = some path) ∧ s.files.NamedOnly file path ∧
        got <+: s.files.data file ∧ Whole cache before s.asked path (s.files.data file) ∧
          ∀ p c todo, s.alive p = true → s.phase p ≠ .writing c file todo)
    (hfinished : ∀ path got, reading = .finished path got →
      Whole cache before s.asked path got) :
    Inv cache pid before (s.setReading r reading) where
  tidy := h.tidy
  pids := h.pids
  calls := h.calls
  writing := h.writing
  current := h.current
  apart := h.apart
  unshared := by
    intro p c file todo k path got hp hc hk
    rcases Transition.update_cases (· = Reading.reading path file got) hk with
      ⟨-, hnew⟩ | ⟨-, hold⟩
    · exact (hreading _ _ _ hnew).2.2.2.2 p c todo hp hc
    · exact h.unshared hp hc hold
  written := h.written
  published := h.published
  reading := by
    intro k path file got hk
    rcases Transition.update_cases (· = Reading.reading path file got) hk with
      ⟨-, hnew⟩ | ⟨-, hold⟩
    · obtain ⟨hpath, hnamed, hgot, hwhole, -⟩ := hreading _ _ _ hnew
      exact ⟨hpath, hnamed, hgot, hwhole⟩
    · exact h.reading hold
  finished := by
    intro k path got hk
    rcases Transition.update_cases (· = Reading.finished path got) hk with
      ⟨-, hnew⟩ | ⟨-, hold⟩
    · exact hfinished _ _ hnew
    · exact h.finished hold

/-- Every step keeps the invariant. -/
lemma step (h : Inv cache pid before s) (hstep : Step cache pid s s') :
    Inv cache pid before s' := by
  cases hstep with
  | start p hphase hpid => exact h.setAlive p true (fun _ => hphase) fun _ => hpid
  | exit p => exact h.setAlive p false (fun h => nomatch h) fun h => nomatch h
  | call p root path index halive hphase hpath =>
    refine (h.ask (root, index)).setPhase p ?_ (fun _ _ _ h => nomatch h) fun _ _ h => nomatch h
    intro c hc
    obtain rfl : ⟨path, index.encode⟩ = c := Option.some.inj hc
    exact ⟨⟨root, hpath⟩, .inr ⟨(root, index), List.mem_cons_self, hpath, rfl⟩⟩
  | noDir p c halive hphase =>
    exact h.setPhase p (fun _ h => nomatch h) (fun _ _ _ h => nomatch h) fun _ _ h => nomatch h
  | create p c halive hphase => exact h.create halive (by rw [hphase, Phase.call])
  | write p c file bytes rest halive hphase => exact h.write halive hphase
  | close p c file halive hphase =>
    refine h.setPhase p ?_ (fun _ _ _ h => nomatch h) ?_
    · intro d hd
      exact h.calls halive (by rw [hphase]; exact hd)
    · intro d j hd hname
      obtain rfl : c = d := Phase.written.inj hd
      rw [h.current halive hphase hname, ← (h.writing halive hphase).2, List.append_nil]
  | rename p c file halive hphase hfile =>
    obtain ⟨⟨root, hpath⟩, hwhole⟩ := h.calls halive (by rw [hphase, Phase.call])
    have hidle : Inv cache pid before (s.setPhase p .idle) :=
      h.setPhase p (fun _ h => nomatch h) (fun _ _ _ h => nomatch h) fun _ _ h => nomatch h
    refine hidle.rename hpath hfile ?_ ?_
    · -- Whoever writes that file has the identifier of this process.
      intro q d todo hq hd
      obtain ⟨hne, hold⟩ :=
        (Transition.update_cases (· = Phase.writing d file todo) hd).resolve_left
          fun heq => nomatch heq.2
      have htmp := (h.writing hq hold).1.only _ hfile
      exact hne (h.pids halive hq (tmpPath_injective htmp).2).symm
    · have hdata := h.written halive hphase hfile
      rwa [← hdata] at hwhole
  | fail p c halive hphase =>
    refine h.setPhase p ?_ (fun _ _ _ h => nomatch h) fun _ _ h => nomatch h
    intro d hd
    obtain rfl : c = d := Option.some.inj hd
    refine h.calls halive ?_
    rcases hphase with hphase | ⟨file, rest, hphase⟩ | hphase <;> rw [hphase, Phase.call]
  | clean p c halive hphase =>
    exact (h.unlink (tmpPath c.path (pid p))).setPhase p (fun _ h => nomatch h)
      (fun _ _ _ h => nomatch h) fun _ _ h => nomatch h
  | leave p c halive hphase =>
    exact h.setPhase p (fun _ h => nomatch h) (fun _ _ _ h => nomatch h) fun _ _ h => nomatch h
  | openRead r root path file hpath hfile =>
    refine h.setReading r ?_ fun _ _ h => nomatch h
    intro path' file' got' heq
    cases heq
    refine ⟨⟨root, hpath⟩, h.tidy _ _ hfile, List.nil_prefix, h.published hpath hfile, ?_⟩
    intro q d todo hq hd
    exact tmpPath_ne_of_pathFor hpath _ _ ((h.writing hq hd).1.only _ hfile).symm
  | read r path file got more hreading hmore =>
    refine h.setReading r ?_ fun _ _ h => nomatch h
    intro path' file' got' heq
    cases heq
    obtain ⟨hpath, hnamed, -, hwhole⟩ := h.reading hreading
    exact ⟨hpath, hnamed, hmore, hwhole, fun q d todo hq hd => h.unshared hq hd hreading⟩
  | finish r path file got hreading hend =>
    refine h.setReading r (fun _ _ _ h => nomatch h) ?_
    intro path' got' heq
    cases heq
    obtain ⟨-, -, hgot, hwhole⟩ := h.reading hreading
    rwa [hgot.eq_of_length_le hend]
  | remove path => exact h.unlink path

/-- An index file changes only when it is removed, or replaced by all that a call was asked to
write. -/
lemma contents_step (h : Inv cache pid before s) (hstep : Step cache pid s s') {root path : Bytes}
    (hpath : cache.pathFor root = some path) :
    s'.contents path = s.contents path ∨ s'.contents path = none ∨
      ∃ p c, s.alive p = true ∧ s.phase p = .written c ∧ c.path = path ∧
        s'.contents path = some c.bytes := by
  cases hstep with
  | start | exit | call | noDir | close | fail | leave | openRead | read | finish => exact .inl rfl
  | create p c => exact .inl (h.tidy.contents_create (tmpPath_ne_of_pathFor hpath _ _).symm)
  | write p c file bytes rest halive hphase =>
    refine .inl (FileStore.contents_append (fun hname => ?_) bytes)
    exact tmpPath_ne_of_pathFor hpath _ _ ((h.writing halive hphase).1.only _ hname).symm
  | rename p c file halive hphase hfile =>
    have hcontents : (s.files.rename file (tmpPath c.path (pid p)) c.path).contents path =
        if path = c.path then some (s.files.data file) else s.files.contents path :=
      FileStore.contents_rename (tmpPath_ne_of_pathFor hpath c.path (pid p)).symm
    rw [h.written halive hphase hfile] at hcontents
    by_cases heq : path = c.path
    · rw [if_pos heq] at hcontents
      exact .inr (.inr ⟨p, c, halive, hphase, heq.symm, hcontents⟩)
    · rw [if_neg heq] at hcontents
      exact .inl hcontents
  | clean p c =>
    refine .inl ((FileStore.contents_unlink ..).trans (if_neg ?_))
    exact (tmpPath_ne_of_pathFor hpath _ _).symm
  | remove removed =>
    by_cases heq : path = removed
    · exact .inr (.inl ((FileStore.contents_unlink ..).trans (if_pos heq)))
    · exact .inl ((FileStore.contents_unlink ..).trans (if_neg heq))

/-- The invariant holds at the end of every run. -/
lemma run (h : Inv cache pid before s) (hrun : Relation.ReflTransGen (Step cache pid) s s') :
    Inv cache pid before s' := by
  induction hrun with
  | refl => exact h
  | tail _ hstep ih => exact ih.step hstep

end Inv

/-- What is decoded from whole bytes was decoded from the first contents, or is an index that was
asked to be stored. -/
lemma Whole.load {asked : List (Bytes × Index)} {path bytes : Bytes}
    (h : Whole cache before asked path bytes) (hwf : ∀ e ∈ asked, e.2.WellFormed) :
    load (some bytes) = Scap.load (before.contents path) ∨
      ∃ e ∈ asked, cache.pathFor e.1 = some path ∧ Scap.load (some bytes) = some e.2 := by
  rcases h with h | ⟨e, he, hpath, rfl⟩
  · exact .inl (by rw [h])
  · exact .inr ⟨e, he, hpath, (hwf e he).decode_encode⟩

/-- However the calls of `write_atomically` and the reads of any number of processes interleave,
and wherever calls fail and processes die: what was read from an index file and what it holds is
what it held first or all of one index, and either decodes to that; and only a removal or a call
that has written all of its bytes changes an index file. -/
theorem index_read_whole (cache : Cache) (pid : ℕ → ℕ) {before s : State} (h : Initial before)
    (hrun : Relation.ReflTransGen (Step cache pid) before s) :
    (∀ r path got, s.reading r = .finished path got → Whole cache before s.asked path got) ∧
      (∀ root path bytes, cache.pathFor root = some path → s.contents path = some bytes →
        Whole cache before s.asked path bytes) ∧
      ((∀ e ∈ s.asked, e.2.WellFormed) →
        (∀ r path got, s.reading r = .finished path got →
          load (some got) = load (before.contents path) ∨
            ∃ e ∈ s.asked, cache.pathFor e.1 = some path ∧ load (some got) = some e.2) ∧
        ∀ root path bytes, cache.pathFor root = some path → s.contents path = some bytes →
          load (some bytes) = load (before.contents path) ∨
            ∃ e ∈ s.asked, cache.pathFor e.1 = some path ∧ load (some bytes) = some e.2) ∧
      ∀ s', Step cache pid s s' → ∀ root path, cache.pathFor root = some path →
        s'.contents path = s.contents path ∨ s'.contents path = none ∨
          ∃ p c, s.alive p = true ∧ s.phase p = .written c ∧ c.path = path ∧
            s'.contents path = some c.bytes := by
  have hinv : Inv cache pid before s := h.inv.run hrun
  have hheld : ∀ root path bytes, cache.pathFor root = some path → s.contents path = some bytes →
      Whole cache before s.asked path bytes := by
    intro root path bytes hpath hbytes
    obtain ⟨file, hfile, rfl⟩ := Option.map_eq_some_iff.mp hbytes
    exact hinv.published hpath hfile
  refine ⟨fun r path got => hinv.finished, hheld, fun hwf => ⟨?_, ?_⟩, ?_⟩
  · exact fun r path got hr => (hinv.finished hr).load hwf
  · exact fun root path bytes hpath hbytes => (hheld root path bytes hpath hbytes).load hwf
  · exact fun s' hstep root path hpath => hinv.contents_step hstep hpath

variable (cache pid) in
/-- An open index file can be read to its end. -/
lemma exists_finished (s : State) (r : ℕ) {path : Bytes} {file : ℕ}
    (hreading : s.reading r = .reading path file []) :
    ∃ s', Relation.ReflTransGen (Step cache pid) s s' ∧
      s'.reading = update s.reading r (.finished path (s.files.data file)) ∧
      s'.files = s.files ∧ s'.asked = s.asked := by
  let read := s.setReading r (.reading path file ([] ++ s.files.data file))
  have hread : Step cache pid s read := .read r path file [] _ hreading (List.prefix_refl _)
  have hfinish : Step cache pid read _ := .finish r path file _ (Function.update_self ..) le_rfl
  exact ⟨_, .head hread (.single hfinish), Function.update_idem .., rfl, rfl⟩

variable (cache pid) in
/-- A call that nothing disturbs replaces the file, and the files that are not its temporary one
keep what they hold. -/
lemma exists_replaced (s : State) (p : ℕ) {root path : Bytes} (index : Index)
    (halive : s.alive p = true) (hphase : s.phase p = .idle)
    (hpath : cache.pathFor root = some path) :
    ∃ s', Relation.ReflTransGen (Step cache pid) s s' ∧ s'.contents path = some index.encode ∧
      s'.asked = (root, index) :: s.asked ∧ s'.reading = s.reading ∧
      ∀ i ≠ s.files.opened (tmpPath path (pid p)), s'.files.data i = s.files.data i := by
  let c : Call := ⟨path, index.encode⟩
  let tmp := tmpPath path (pid p)
  let file := s.files.opened tmp
  let called := { s.setPhase p (.creating c) with asked := (root, index) :: s.asked }
  let created := { called.setPhase p (.writing c file index.encode) with
    files := s.files.create tmp }
  let filled := { created.setPhase p (.writing c file []) with
    files := created.files.append file index.encode }
  let closed := filled.setPhase p (.written c)
  have hcall : Step cache pid s called := .call p root path index halive hphase hpath
  have hcreate : Step cache pid called created := .create p c halive (Function.update_self ..)
  have hwrite : Step cache pid created filled :=
    .write p c file index.encode [] halive (by rw [List.append_nil]; exact Function.update_self ..)
  have hclose : Step cache pid filled closed := .close p c file halive (Function.update_self ..)
  have hname : closed.files.names tmp = some file := FileStore.names_create_self ..
  have hrename : Step cache pid closed _ :=
    .rename p c file halive (Function.update_self ..) hname
  have hdata : closed.files.data file = index.encode := by
    refine (FileStore.data_append_self ..).trans ?_
    rw [show created.files.data file = [] from FileStore.data_create_opened .., List.nil_append]
  refine ⟨_, .head hcall (.head hcreate (.head hwrite (.head hclose (.single hrename)))), ?_, rfl,
    rfl, fun i hi => ?_⟩
  · refine (FileStore.contents_rename (tmpPath_ne_of_pathFor hpath _ _).symm).trans ?_
    rw [if_pos rfl, hdata]
  · exact (FileStore.data_append_of_ne hi _).trans (FileStore.data_create_of_ne hi)

/-- The index file of a root, and nobody at work. -/
def sampleState : State where
  files := ⟨fun name => if (Cache.mk (some (ascii ['/', 'c']))).pathFor sampleIndex.root = some name
    then some 0 else none, fun _ => sampleIndex.encode, 1⟩
  alive _ := false
  phase _ := .idle
  reading _ := .idle
  asked := []

/-- Nobody is at work in the sample state. -/
lemma sampleState_initial : Initial sampleState := by
  refine ⟨fun name i hname => ?_, fun _ => rfl, fun _ => rfl, fun _ => rfl, rfl⟩
  have hcases : ∀ {m j}, sampleState.files.names m = some j →
      (Cache.mk (some (ascii ['/', 'c']))).pathFor sampleIndex.root = some m ∧ j = 0 := by
    intro m j hm
    rw [sampleState] at hm
    dsimp only at hm
    split_ifs at hm with h
    exact ⟨h, (Option.some.inj hm).symm⟩
  obtain ⟨hpath, rfl⟩ := hcases hname
  exact ⟨Nat.zero_lt_one, fun m hm => Option.some.inj ((hcases hm).1.symm.trans hpath)⟩

/-- An index of the same root, with nothing below it. -/
def emptyIndex : Index := { sampleIndex with entries := [⟨[], some 9, []⟩] }

/-- The empty index is well-formed. -/
lemma emptyIndex_wellFormed : emptyIndex.WellFormed := by
  refine ⟨by decide, by decide, by decide, by decide, fun k hpos hk => ?_, by decide, by decide,
    by decide, by decide, by decide, by decide⟩
  exact absurd (show k < 1 from hk) (Nat.not_lt.mpr hpos)

/-- While one reader has the file open, a process creates, writes and renames another.  That reader
still reads all of the first index, and one that opens the file now reads all of the second. -/
theorem index_read_whole_sample :
    ∃ path s, Relation.ReflTransGen (Step ⟨some (ascii ['/', 'c'])⟩ id) sampleState s ∧
      s.reading 0 = .finished path sampleIndex.encode ∧
      s.reading 1 = .finished path emptyIndex.encode ∧
      s.contents path = some emptyIndex.encode ∧
      Whole ⟨some (ascii ['/', 'c'])⟩ sampleState s.asked path sampleIndex.encode ∧
      Whole ⟨some (ascii ['/', 'c'])⟩ sampleState s.asked path emptyIndex.encode ∧
      (load (some emptyIndex.encode) = load (sampleState.contents path) ∨
        ∃ e ∈ s.asked, Cache.pathFor ⟨some (ascii ['/', 'c'])⟩ e.1 = some path ∧
          load (some emptyIndex.encode) = some e.2) := by
  obtain ⟨path, hpath⟩ : ∃ path, Cache.pathFor ⟨some (ascii ['/', 'c'])⟩ sampleIndex.root =
    some path := ⟨_, rfl⟩
  have hname : sampleState.files.names path = some 0 := if_pos hpath
  have htmp : sampleState.files.names (tmpPath path 0) = none :=
    if_neg fun heq => (tmpPath_ne_of_pathFor hpath path 0)
      (Option.some.inj (heq.symm.trans hpath))
  let opened := sampleState.setReading 0 (.reading path 0 [])
  let started := { opened with alive := update opened.alive 0 true }
  have hopen : Step ⟨some (ascii ['/', 'c'])⟩ id sampleState opened :=
    .openRead 0 sampleIndex.root path 0 hpath hname
  have hstart : Step ⟨some (ascii ['/', 'c'])⟩ id opened started :=
    .start 0 rfl fun q hq => nomatch hq
  obtain ⟨replaced, hreplace, hcontents, hasked, hreading, hdata⟩ :=
    exists_replaced _ id started 0 emptyIndex rfl rfl hpath
  obtain ⟨file, hfile, hnew⟩ := Option.map_eq_some_iff.mp hcontents
  have hold : replaced.files.data 0 = sampleIndex.encode :=
    hdata 0 (FileStore.ne_opened Nat.zero_lt_one fun h => by cases htmp.symm.trans h)
  let reopened := replaced.setReading 1 (.reading path file [])
  have hreopen : Step ⟨some (ascii ['/', 'c'])⟩ id replaced reopened :=
    .openRead 1 sampleIndex.root path file hpath hfile
  have hopened : reopened.reading 0 = .reading path 0 [] := by
    rw [State.reading_setReading_of_ne (by decide), hreading]
    rfl
  obtain ⟨first, hfirst, hread, hfiles, hasked'⟩ :=
    exists_finished ⟨some (ascii ['/', 'c'])⟩ id reopened 0 hopened
  have hopened' : first.reading 1 = .reading path file [] := by
    rw [hread, Function.update_of_ne (by decide)]
    rfl
  obtain ⟨s, hsecond, hread', hfiles', hasked''⟩ :=
    exists_finished ⟨some (ascii ['/', 'c'])⟩ id first 1 hopened'
  have hrun := ((((Relation.ReflTransGen.single hopen).tail hstart).trans hreplace).tail
    hreopen).trans (hfirst.trans hsecond)
  have hzero : s.reading 0 = .finished path sampleIndex.encode := by
    rw [hread', Function.update_of_ne (by decide), hread, Function.update_self, ← hold]
    rfl
  have hone : s.reading 1 = .finished path emptyIndex.encode := by
    rw [hread', Function.update_self, hfiles, ← hnew]
    rfl
  have hholds : s.contents path = some emptyIndex.encode := by
    rw [State.contents, hfiles', hfiles, ← hcontents]
    rfl
  have hstored : s.asked = [(sampleIndex.root, emptyIndex)] :=
    hasked''.trans (hasked'.trans hasked)
  obtain ⟨hwhole, -, hload, -⟩ := index_read_whole _ id sampleState_initial hrun
  have hwf : ∀ e ∈ s.asked, e.2.WellFormed := by
    intro e he
    obtain rfl := List.mem_singleton.mp (hstored ▸ he)
    exact emptyIndex_wellFormed
  exact ⟨path, s, hrun, hzero, hone, hholds, hwhole 0 path _ hzero, hwhole 1 path _ hone,
    (hload hwf).2 sampleIndex.root path _ hpath hholds⟩

end

end Replace

end Scap
