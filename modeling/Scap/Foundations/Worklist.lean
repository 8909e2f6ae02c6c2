import Mathlib.Algebra.BigOperators.Group.Multiset.Basic
import Mathlib.Data.Multiset.AddSub
import Mathlib.Tactic.Common

/-!
# Draining a worklist

A relation `runs job children out` says what may come of a job: jobs to do next, and an output.
`Drains runs pending log` is a sequential run that takes the pending jobs in some order until none
is left.  What a run does to the pending jobs can be followed in two ways: nothing is left undone
(`Drains.exists_children`), and whatever each job is worth, if that is what its output and its
children are worth together, the outputs are worth what the pending jobs were (`Drains.describes`).
-/

variable {J O M : Type*} {runs : J → List J → O → Prop}

/-- A sequential run: the jobs in the order they are taken, each with its output. -/
inductive Drains (runs : J → List J → O → Prop) : Multiset J → List (J × O) → Prop
  /-- Nothing is pending. -/
  | nil : Drains runs 0 []
  /-- Take a pending job and put its children with the others. -/
  | cons {job : J} {children : List J} {out : O} {others : Multiset J} {log : List (J × O)} :
      runs job children out → Drains runs (↑children + others) log →
      Drains runs (job ::ₘ others) ((job, out) :: log)

namespace Drains

variable {pending : Multiset J} {log : List (J × O)}

/-- A run takes every pending job. -/
lemma mem_log (h : Drains runs pending log) {job : J} (hjob : job ∈ pending) :
    ∃ out, (job, out) ∈ log := by
  induction h generalizing job with
  | nil => exact absurd hjob (Multiset.notMem_zero job)
  | cons hrun _ ih =>
    rcases Multiset.mem_cons.mp hjob with rfl | hjob
    · exact ⟨_, List.mem_cons_self ..⟩
    · obtain ⟨out, hout⟩ := ih (Multiset.mem_add.mpr (.inr hjob))
      exact ⟨out, List.mem_cons_of_mem _ hout⟩

/-- A run takes the children of every job it takes. -/
lemma exists_children (h : Drains runs pending log) {e : J × O} (he : e ∈ log) :
    ∃ children, runs e.1 children e.2 ∧ ∀ child ∈ children, ∃ out, (child, out) ∈ log := by
  induction h with
  | nil => exact absurd he List.not_mem_nil
  | @cons job children out others log hrun hrest ih =>
    rcases List.mem_cons.mp he with rfl | he
    · refine ⟨children, hrun, fun child hchild => ?_⟩
      obtain ⟨out, hout⟩ := hrest.mem_log (Multiset.mem_add.mpr (.inl (by simpa using hchild)))
      exact ⟨out, List.mem_cons_of_mem _ hout⟩
    · obtain ⟨children, hrun, hchildren⟩ := ih he
      exact ⟨children, hrun, fun child hchild =>
        (hchildren child hchild).imp fun out hout => List.mem_cons_of_mem _ hout⟩

/-- A run takes only the pending jobs and what they lead to. -/
lemma forall_log {P : J → Prop} (h : Drains runs pending log)
    (hruns : ∀ {job children out}, runs job children out → P job → ∀ child ∈ children, P child)
    (hpending : ∀ job ∈ pending, P job) : ∀ e ∈ log, P e.1 := by
  induction h with
  | nil => exact fun e he => absurd he List.not_mem_nil
  | @cons job children out others log hrun _ ih =>
    have hjob := hpending job (Multiset.mem_cons_self _ _)
    intro e he
    rcases List.mem_cons.mp he with rfl | he
    · exact hjob
    · refine ih (fun child hchild => ?_) e he
      rcases Multiset.mem_add.mp hchild with hchild | hchild
      · exact hruns hrun hjob child (by simpa using hchild)
      · exact hpending child (Multiset.mem_cons_of_mem hchild)

/-- What the pending jobs are worth, the outputs describe.  Outputs are put together by `merge`,
from `new` on, and `D` says that an output is worth so much. -/
lemma describes [AddCommMonoid M] {value : J → M} {D : M → O → Prop} {merge : O → O → O}
    {new : O} {P : J → Prop} (h : Drains runs pending log) (hnew : D 0 new)
    (hmerge : ∀ {m m' out out'}, D m out → D m' out' →
      D (m + m') (merge out out'))
    (hruns : ∀ {job children out}, runs job children out → P job → (∀ child ∈ children, P child) ∧
      ∃ own, D own out ∧ value job = own + (children.map value).sum)
    (hpending : ∀ job ∈ pending, P job) :
    D (pending.map value).sum ((log.map Prod.snd).foldr merge new) := by
  induction h with
  | nil => simpa using hnew
  | @cons job children out others log hrun _ ih =>
    obtain ⟨hchildren, own, hown, hvalue⟩ := hruns hrun (hpending job (Multiset.mem_cons_self _ _))
    have hrest := ih fun child hchild => by
      rcases Multiset.mem_add.mp hchild with hchild | hchild
      · exact hchildren child (by simpa using hchild)
      · exact hpending child (Multiset.mem_cons_of_mem hchild)
    rw [Multiset.map_add, Multiset.sum_add, Multiset.map_coe, Multiset.sum_coe] at hrest
    rw [Multiset.map_cons, Multiset.sum_cons, hvalue, add_assoc]
    exact hmerge hown hrest

end Drains
