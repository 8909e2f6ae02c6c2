import Mathlib.Logic.Function.Basic
import Mathlib.Logic.Relation
import Mathlib.Order.RelClasses
import Mathlib.Tactic.Common

/-!
# Runs of transition systems

A transition system is a set of initial states and a step relation.  Everything proved here about
reachable states goes through one rule: a property that holds initially and survives every step
holds of every reachable state (`Reachable.invariant`).  That a goal can be reached goes through
another: every step that leads there lowers a bound (`exists_run_of_variant`), and a run whose steps
lower a bound ends (`exists_not_step_of_variant`).  Systems whose steps are computed by a partial
function of an action have runs that can be evaluated (`replay`), and an evaluated run reaches its
last state (`Reachable.of_replay`, or `Reachable.of_replay_guarded` where the condition on a step
depends on the state and can be evaluated too).
-/

namespace Transition

variable {σ α : Type*}

/-- The state `s` is reached from an initial state by finitely many steps. -/
def Reachable (init : σ → Prop) (step : σ → σ → Prop) (s : σ) : Prop :=
  ∃ s₀, init s₀ ∧ Relation.ReflTransGen step s₀ s

variable {init : σ → Prop} {step : σ → σ → Prop}

/-- An initial state is reached. -/
lemma Reachable.initial {s : σ} (h : init s) : Reachable init step s := ⟨s, h, .refl⟩

/-- A step from a reached state reaches its end. -/
lemma Reachable.tail {s t : σ} (h : Reachable init step s) (hst : step s t) :
    Reachable init step t := by
  obtain ⟨s₀, h₀, hrun⟩ := h
  exact ⟨s₀, h₀, hrun.tail hst⟩

/-- The invariant rule: what holds initially and survives every step holds of every reachable
state.  A step may be assumed to start in a reachable state. -/
lemma Reachable.invariant {P : σ → Prop} (hinit : ∀ s, init s → P s)
    (hstep : ∀ s t, Reachable init step s → P s → step s t → P t) {s : σ}
    (h : Reachable init step s) : P s := by
  obtain ⟨s₀, h₀, hrun⟩ := h
  induction hrun with
  | refl => exact hinit s₀ h₀
  | @tail s t hrun hst ih => exact hstep s t ⟨s₀, h₀, hrun⟩ ih hst

/-- The variant rule: where a state that is not the goal always has a step to one with a smaller
bound, the goal can be reached. -/
lemma exists_run_of_variant {β : Type*} [LT β] [WellFoundedLT β] {P : σ → β → Prop}
    {goal : σ → Prop}
    (hprogress : ∀ s b, P s b → goal s ∨ ∃ t b', step s t ∧ P t b' ∧ b' < b) {s : σ} {b : β}
    (h : P s b) : ∃ t, Relation.ReflTransGen step s t ∧ goal t := by
  induction b using WellFoundedLT.induction generalizing s with
  | ind b ih =>
    rcases hprogress s b h with hgoal | ⟨t, b', hst, ht, hlt⟩
    · exact ⟨s, .refl, hgoal⟩
    · obtain ⟨u, hrun, hgoal⟩ := ih b' hlt ht
      exact ⟨u, .head hst hrun, hgoal⟩

/-- A run whose steps lower a bound cannot go on for ever. -/
lemma exists_not_step_of_variant {β : Type*} [LT β] [WellFoundedLT β] {P : σ → β → Prop}
    (hstep : ∀ s t b, P s b → step s t → ∃ b' < b, P t b') (run : ℕ → σ) {i : ℕ} {b : β}
    (h : P (run i) b) : ∃ j ≥ i, ¬step (run j) (run (j + 1)) := by
  induction b using WellFoundedLT.induction generalizing i with
  | ind b ih =>
    by_cases hnext : step (run i) (run (i + 1))
    · obtain ⟨b', hlt, h'⟩ := hstep _ _ b h hnext
      obtain ⟨j, hj, hstop⟩ := ih b' hlt h'
      exact ⟨j, Nat.le_of_succ_le hj, hstop⟩
    · exact ⟨i, Nat.le_refl i, hnext⟩

/-- What holds of a component after a step of one of them holds of the one that stepped, or held
before. -/
lemma update_cases {ι β : Type*} [DecidableEq ι] (P : β → Prop) {f : ι → β} {i j : ι} {b : β}
    (h : P (Function.update f i b j)) : j = i ∧ P b ∨ j ≠ i ∧ P (f j) := by
  by_cases hne : j = i
  · subst hne
    rw [Function.update_self] at h
    exact .inl ⟨rfl, h⟩
  · rw [Function.update_of_ne hne] at h
    exact .inr ⟨hne, h⟩

/-- A component whose value is not that of the one that stepped keeps it. -/
lemma update_keeps {ι β : Type*} [DecidableEq ι] {f : ι → β} {i j : ι} {b c : β} (h : f j = c)
    (hne : f i ≠ c) : Function.update f i b j = c := by
  have hji : j ≠ i := by
    rintro rfl
    exact hne h
  rw [Function.update_of_ne hji, h]

/-- The steps a partial function of an action computes, under a condition on the state and the
action. -/
def StepOf (next : σ → α → Option σ) (ok : σ → α → Prop) (s t : σ) : Prop :=
  ∃ a, ok s a ∧ next s a = some t

/-- The state a list of actions leads to. -/
def replay (next : σ → α → Option σ) (s : σ) (actions : List α) : Option σ :=
  actions.foldlM next s

/-- An evaluated run is its first action and an evaluated run. -/
lemma replay_cons_eq_some_iff {next : σ → α → Option σ} {s t : σ} {a : α} {actions : List α} :
    replay next s (a :: actions) = some t ↔
      ∃ s', next s a = some s' ∧ replay next s' actions = some t := by
  rw [replay, List.foldlM_cons]
  exact Option.bind_eq_some_iff

/-- Two evaluated runs, one after the other. -/
lemma replay_append_eq_some_iff {next : σ → α → Option σ} {s t : σ} {actions later : List α} :
    replay next s (actions ++ later) = some t ↔
      ∃ s', replay next s actions = some s' ∧ replay next s' later = some t := by
  rw [replay, List.foldlM_append]
  exact Option.bind_eq_some_iff

/-- An evaluated run is a run, if its actions meet the condition in every state. -/
lemma run_of_replay {next : σ → α → Option σ} {ok : σ → α → Prop} {s t : σ} {actions : List α}
    (hok : ∀ a ∈ actions, ∀ s, ok s a) (h : replay next s actions = some t) :
    Relation.ReflTransGen (StepOf next ok) s t := by
  induction actions generalizing s with
  | nil =>
    obtain rfl : s = t := by simpa [replay] using h
    exact .refl
  | cons a actions ih =>
    obtain ⟨s', hs', h⟩ := replay_cons_eq_some_iff.mp h
    obtain ⟨ha, hactions⟩ := List.forall_mem_cons.mp hok
    exact (ih hactions h).head ⟨a, ha s, hs'⟩

/-- The steps of a partial function that meet a condition. -/
def guarded (next : σ → α → Option σ) (ok : σ → α → Prop) [∀ s a, Decidable (ok s a)] (s : σ)
    (a : α) : Option σ :=
  if ok s a then next s a else none

/-- An evaluated run whose conditions are evaluated with it reaches its last state. -/
lemma Reachable.of_replay_guarded {next : σ → α → Option σ} {ok : σ → α → Prop}
    [∀ s a, Decidable (ok s a)] {s t : σ} {actions : List α}
    (hs : Reachable init (StepOf next ok) s)
    (h : replay (guarded next ok) s actions = some t) : Reachable init (StepOf next ok) t := by
  induction actions generalizing s with
  | nil =>
    obtain rfl : s = t := by simpa [replay] using h
    exact hs
  | cons a actions ih =>
    obtain ⟨s', hs', h⟩ := replay_cons_eq_some_iff.mp h
    obtain ⟨hok, hnext⟩ := Option.ite_none_right_eq_some.mp hs'
    exact ih (hs.tail ⟨a, hok, hnext⟩) h

/-- An evaluated run reaches its last state. -/
lemma Reachable.of_replay {next : σ → α → Option σ} {ok : σ → α → Prop} {s t : σ} {actions : List α}
    (hs : Reachable init (StepOf next ok) s) (hok : ∀ a ∈ actions, ∀ s, ok s a)
    (h : replay next s actions = some t) : Reachable init (StepOf next ok) t := by
  obtain ⟨s₀, h₀, hrun⟩ := hs
  exact ⟨s₀, h₀, hrun.trans (run_of_replay hok h)⟩

end Transition
