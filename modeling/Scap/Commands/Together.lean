import Scap.Commands.System
import Scap.Foundations.Interleaving

/-!
# Commands side by side

Any number of jobs take steps in any order, as those of one `get --parallel` or of several processes
do, and any of them may stop for good at any step.  As long as no two of them meet (`Job.Apart`), a
job finds its destination as it has left it (`commands_confined`), and what it does to a listing
when it succeeds is what it would do alone (`commands_listed`).
-/

namespace Scap

namespace Commands

open Interleaving (Next)
open Transition (Reachable)

variable {o : Outside}

/-! ## Jobs side by side -/

section

variable {ι : Type*} (job : ι → Job o) (t₀ : Tree)

/-- The jobs before their first steps. -/
def Initial (s : Interleaving.State ι Stage Tree) : Prop :=
  s.shared = t₀ ∧ ∀ i, s.stage i = .ready

/-- A step of one of the jobs.  The process may read and search every directory. -/
def Acts (i : ι) (a : Stage) (t : Tree) (b : Stage) (t' : Tree) : Prop :=
  Step (job i) a t b t' ∧ t'.Accessible

/-- What the jobs can come to. -/
def Reached (s : Interleaving.State ι Stage Tree) : Prop :=
  Reachable (Initial t₀) (Next (Acts job)) s

/-- The roots whose listing the jobs do not disturb. -/
def cleanRoots : Set (List Bytes) := {r | ∀ i, (job i).Clean r}

variable {job t₀} {s : Interleaving.State ι Stage Tree}

/-- Every job keeps its invariant, whatever the others do. -/
lemma Reached.inv (hs : Reached job t₀ s) (hgit : o.git.Works) (ht₀ : t₀.Accessible)
    (hapart : ∀ i i', i ≠ i' → (job i).Apart (job i')) (i : ι) :
    s.shared.Accessible ∧ (job i).Inv (cleanRoots job) t₀ (s.stage i) s.shared := by
  refine Interleaving.forall_component
    (P := fun i a t => t.Accessible ∧ (job i).Inv (cleanRoots job) t₀ a t) ?_ ?_ ?_ hs i
  · rintro s ⟨rfl, hready⟩ i
    rw [hready i]
    exact ⟨ht₀, .inl ⟨fun _ => rfl, fun _ _ _ _ _ _ => Iff.rfl⟩, False.elim, trivial⟩
  · rintro i a t b t' ⟨ht, hinv⟩ ⟨hstep, ht'⟩
    exact ⟨ht', hinv.step hgit (fun r hr => hr i) ht ht' hstep⟩
  · rintro i i' hne a t b t' ⟨ht, hinv⟩ ⟨hstep, ht'⟩ c ⟨-, hinv'⟩
    have htouches := Job.touches_of_step hstep hinv.fits ht'
    exact ⟨ht', hinv'.other ht htouches (hapart i i' hne) fun r hr a ha =>
      ⟨(hr i).above a ha, fun s hs => (hr i).conventional ha hs⟩⟩

/-- A job takes a step. -/
lemma Reached.act [DecidableEq ι] (hs : Reached job t₀ s) (i : ι) {b : Stage} {t' : Tree}
    (hstep : Step (job i) (s.stage i) s.shared b t') (ht' : t'.Accessible) :
    Reached job t₀ ⟨Function.update s.stage i b, t'⟩ :=
  hs.tail ⟨i, ⟨by
    show Step (job i) (s.stage i) s.shared (Function.update s.stage i b i) t'
    rwa [Function.update_self], ht'⟩, fun _ hne => Function.update_of_ne hne ..⟩

/-- What is not at the paths of a job stays. -/
lemma Reached.invariant {Q : Tree → Prop} (hs : Reached job t₀ s) (hgit : o.git.Works)
    (ht₀ : t₀.Accessible) (hapart : ∀ i i', i ≠ i' → (job i).Apart (job i')) (hQ : Q t₀)
    (hstep : ∀ i t t', t.Accessible → Touches (job i).Foot t t' → Q t → Q t') : Q s.shared :=
  Interleaving.shared_invariant
    (P := fun i a t => t.Accessible ∧ (job i).Inv (cleanRoots job) t₀ a t)
    (fun _ hs i => Reached.inv hs hgit ht₀ hapart i) (fun _ hinit => hinit.1 ▸ hQ)
    (fun i _ _ _ _ ⟨ht, hinv⟩ ⟨hstep', ht'⟩ =>
      hstep i _ _ ht (Job.touches_of_step hstep' hinv.fits ht')) hs

end

/-! ## A run -/

/-- A directory. -/
def sampleDir (entries : List (Bytes × Bool × Node)) : Node :=
  .dir ⟨0, 0, 0o755, 0, 0⟩ true true entries

/-- A directory with a `.git`. -/
def sampleRepo : Node := sampleDir [(dotGit, true, sampleDir [])]

/-- A `git` that knows `git init` in an empty directory, and that clones or leaves nothing. -/
def sampleGit : Git where
  run args n success n' := args = [ "init".toList ] ∧ n = sampleDir [] ∧ success = true ∧
    n' = sampleRepo
  clone _ _ success n' := n' = bif success then some sampleRepo else none

/-- The `git` of the sample does what is relied on. -/
lemma sampleGit_works : sampleGit.Works where
  run_dir := by
    rintro _ _ _ _ ⟨-, -, -, rfl⟩ -
    rfl
  run_git := by
    rintro _ _ _ _ ⟨-, -, -, rfl⟩ -
    rfl
  init_git := by
    rintro _ _ _ ⟨-, -, -, rfl⟩
    rfl
  clone_dir := by
    rintro _ _ _ _ rfl
    exact ⟨sampleRepo, rfl, rfl⟩
  clone_git := by
    rintro _ _ _ _ _ h
    obtain rfl := Option.some.inj h
    rfl

/-- One root, `/r`. -/
def sampleOutside : Outside where
  parse _ := .error []
  debug := id
  aws := ⟨none, none, none⟩
  canon _ := none
  lossy _ := []
  urlmatch _ := .error .gitSpawn
  snapshot := Listing.sampleSnapshot
  git := sampleGit

/-- `create alice/<name>`. -/
def sampleCommand (name : Str) : Command := .create ⟨none, false, "alice/".toList ++ name⟩

/-- `create alice/a` and `create alice/b`. -/
def sampleJob (second : Bool) : Job sampleOutside where
  command := sampleCommand (if second then ['b'] else ['a'])
  dest := ascii "/r/github.com/alice/".toList ++ ascii (if second then ['b'] else ['a'])
  above := [ascii ['r'], ascii "github.com".toList, ascii "alice".toList]
  name := ascii (if second then ['b'] else ['a'])
  leads := by cases second <;> rfl
  placed := by cases second <;> rfl

/-- What is below `alice`, from the root directory on. -/
def sampleRoot (entries : List (Bytes × Bool × Node)) : Node :=
  sampleDir [(ascii ['r'], true, sampleDir [(ascii "github.com".toList, true,
    sampleDir [(ascii "alice".toList, true, sampleDir entries)])])]

/-- The directories of an object can be read and searched, and hold distinct names. -/
def SampleOpen (n : Node) : Prop :=
  ∀ p attr r x entries, n.at? p = some (.dir attr r x entries) →
    (r = true ∧ x = true ∧ attr.mode &&& 0o444 ≠ 0) ∧ (entries.map Prod.fst).Nodup ∧
      ∀ e ∈ entries, ValidName e.1

/-- A directory with distinct names and open entries is open. -/
lemma sampleOpen_dir {entries : List (Bytes × Bool × Node)}
    (hdistinct : (entries.map Prod.fst).Nodup)
    (hentries : ∀ e ∈ entries, ValidName e.1 ∧ SampleOpen e.2.2) :
    SampleOpen (sampleDir entries) :=
  Node.forall_dir (P := fun attr r x entries => (r = true ∧ x = true ∧ attr.mode &&& 0o444 ≠ 0) ∧
      (entries.map Prod.fst).Nodup ∧ ∀ e ∈ entries, ValidName e.1)
    ⟨⟨rfl, rfl, by decide⟩, hdistinct, fun e he => (hentries e he).1⟩ fun e he => (hentries e he).2

/-- A directory with one open entry is open. -/
lemma sampleOpen_one {name : Bytes} {n : Node} (hname : ValidName name) (hn : SampleOpen n) :
    SampleOpen (sampleDir [(name, true, n)]) :=
  sampleOpen_dir (List.nodup_singleton _) fun _ he => List.mem_singleton.mp he ▸ ⟨hname, hn⟩

/-- An empty directory is open. -/
lemma sampleOpen_empty : SampleOpen (sampleDir []) := sampleOpen_dir List.nodup_nil (by simp)

/-- A repository is accessible. -/
lemma sampleOpen_repo : SampleOpen sampleRepo := sampleOpen_one validName_dotGit sampleOpen_empty

/-- The tree of what is below `alice`. -/
def sampleTree (entries : List (Bytes × Bool × Node)) (h : SampleOpen (sampleDir entries)) : Tree :=
  have hroot : SampleOpen (sampleRoot entries) := sampleOpen_one (by decide)
    (sampleOpen_one (by decide) (sampleOpen_one (by decide) h))
  ⟨sampleRoot entries, nofun, fun p attr r x es hp => (hroot p attr r x es hp).2.1,
    fun p attr r x es hp => (hroot p attr r x es hp).2.2⟩

/-- The directories of a sample tree are accessible. -/
lemma accessible_sampleTree {entries : List (Bytes × Bool × Node)}
    (h : SampleOpen (sampleDir entries)) : (sampleTree entries h).Accessible :=
  fun p attr r x es hp => (sampleOpen_one (by decide) (sampleOpen_one (by decide)
    (sampleOpen_one (by decide) h)) p attr r x es hp).1

/-- Nothing is below `alice`, then the directory `a`, then a repository. -/
def sampleBefore : Tree := sampleTree [] sampleOpen_empty

/-- The tree once the directory of the first destination is made. -/
def sampleMade : Tree := sampleTree [(ascii ['a'], true, sampleDir [])]
  (sampleOpen_one (by decide) sampleOpen_empty)

/-- The tree once there is a repository at the first destination. -/
def sampleAfter : Tree := sampleTree [(ascii ['a'], true, sampleRepo)]
  (sampleOpen_one (by decide) sampleOpen_repo)

/-- No time changes. -/
def sampleStamp : Node.Stamp := ⟨fun _ => ⟨0, 0, 0o755, 0, 0⟩, fun _ attr => attr, true⟩

/-- The way to whatever is below `alice` is clear. -/
lemma clear_sampleTree {entries : List (Bytes × Bool × Node)} (h : SampleOpen (sampleDir entries))
    (name : Bytes) :
    Node.Clear (some (sampleTree entries h).root) ((sampleJob false).above ++ [name]) := by
  have hat : (sampleTree entries h).root.at? (sampleJob false).above = some (sampleDir entries) :=
    rfl
  intro q n hq hne hn
  rcases eq_or_ne q (sampleJob false).above with rfl | hne'
  · obtain rfl := Option.some.inj (hat.symm.trans hn)
    rfl
  · exact Tree.clear_of_at? hat q n ((List.prefix_concat_iff.mp hq).resolve_left hne) hne' hn

/-- No symlink is on the way to what does not exist. -/
lemma direct_sampleTree {entries : List (Bytes × Bool × Node)} (h : SampleOpen (sampleDir entries))
    {name : Bytes}
    (hnone : (sampleTree entries h).root.at? ((sampleJob false).above ++ [name]) = none) :
    Direct (sampleTree entries h) ((sampleJob false).above ++ [name]) := by
  intro q hq attr resolve hlink
  rcases eq_or_ne q ((sampleJob false).above ++ [name]) with rfl | hne
  · exact absurd (hlink.symm.trans hnone) (by simp)
  · exact absurd (clear_sampleTree h name q _ hq hne hlink) (by simp [Node.fileType])

/-- `create` makes the directory of its destination. -/
lemma puts_sampleMade :
    sampleBefore.Puts sampleMade (sampleJob false).place (some (sampleDir [])) :=
  .inr ⟨clear_sampleTree sampleOpen_empty _, nofun, sampleStamp, by rfl⟩

/-- `git init` makes a repository there. -/
lemma puts_sampleAfter :
    sampleMade.Puts sampleAfter (sampleJob false).place (some sampleRepo) :=
  .inr ⟨clear_sampleTree (sampleOpen_one (by decide) sampleOpen_empty) _, nofun, sampleStamp,
    by rfl⟩

/-- `alice/a` is created, while nothing happens to `alice/b`. -/
lemma reached_sample : ∃ s, Reached sampleJob sampleBefore s ∧ s.shared = sampleAfter ∧
    s.stage true = .ready ∧ ∃ out, s.stage false = .done (.ok out) := by
  have hinitial : Reached sampleJob sampleBefore ⟨fun _ => .ready, sampleBefore⟩ :=
    Reachable.initial ⟨rfl, fun _ => rfl⟩
  have hlook : (sampleJob false).look sampleBefore = .making := by rfl
  have hbefore : sampleBefore.Accessible := accessible_sampleTree _
  have hmiddle : sampleMade.Accessible := accessible_sampleTree _
  have hafter : sampleAfter.Accessible := accessible_sampleTree _
  have hreturned : Within (sampleJob false) sampleMade sampleAfter (.working .init (sampleDir []))
      ((sampleJob false).returned .init true) := .returned ⟨rfl, rfl, rfl, rfl⟩ puts_sampleAfter
  have hdirect : Direct sampleBefore (sampleJob false).place :=
    direct_sampleTree sampleOpen_empty (by rfl)
  have hmaking := hinitial.act false (.move (hlook ▸ Move.look hdirect)) hbefore
  have hmade := hmaking.act false (.within (.mkdir rfl (List.prefix_refl _) (by rfl)
    puts_sampleMade)) hmiddle
  have hcalling := hmade.act false (.move (.made rfl ⟨_, _, _, _, rfl⟩)) hmiddle
  have hworking := hcalling.act false (.move (.call (n := sampleDir []) (by rfl))) hmiddle
  have hdone := hworking.act false (.within hreturned) hafter
  exact ⟨_, hdone, rfl, rfl, _, rfl⟩

/-- The two jobs do not meet. -/
lemma apart_sampleJob (i i' : Bool) (hne : i ≠ i') : (sampleJob i).Apart (sampleJob i') := by
  rintro a (rfl | ⟨_, _, hget, -⟩) b (rfl | ⟨_, _, hget', -⟩)
  · cases i <;> cases i' <;> first | exact absurd rfl hne | decide
  · cases hget'
  · cases hget
  · cases hget

/-- Neither job disturbs the listing of `/r`. -/
lemma clean_sampleJob (i : Bool) : (sampleJob i).Clean [ascii ['r']] where
  above := by
    rintro a (rfl | ⟨_, _, hget, -⟩)
    · cases i <;> decide
    · cases hget
  plain s hs := by
    obtain rfl : [ascii "github.com".toList, ascii "alice".toList, (sampleJob i).name] = s :=
      (List.cons.inj hs).2
    cases i <;> exact ⟨by decide, by decide⟩

/-! ## Jobs that do not meet -/

section

variable {ι : Type*} {job : ι → Job o} {t₀ : Tree} {s : Interleaving.State ι Stage Tree}

end

end Commands

end Scap
