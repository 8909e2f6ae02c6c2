import Mathlib.Data.List.Perm.Basic
import Mathlib.Data.Multiset.AddSub
import Mathlib.Logic.Relation
import Mathlib.Tactic.Common

/-!
# Unfolding a child function

A child function `child : K → List K` turns a list of pending nodes into a forest.  `Unfolds child`
is its sequential traversal: take the first pending node, visit it, put its children in front.  A
list of pending nodes with a traversal has a finite unfolding.

The order in which a traversal meets the nodes depends on the order of the pending list, and nothing
else about it does: `Unfolds.perm` reorders the pending list and permutes the visited nodes.  This
is the fact a parallel traversal rests on, where the pending nodes are scattered over several
queues; `Unfolds.visit` is the step it takes.
-/

variable {K : Type*} {child : K → List K}

/-- The sequential traversal: `Unfolds child pending visited` says that visiting the pending nodes
from the first on, each followed by its children, ends after visiting exactly `visited`. -/
inductive Unfolds (child : K → List K) : List K → List K → Prop
  /-- Nothing is pending. -/
  | nil : Unfolds child [] []
  /-- Visit the first pending node and put its children in front of the others. -/
  | cons {k : K} {pending visited : List K} :
      Unfolds child (child k ++ pending) visited → Unfolds child (k :: pending) (k :: visited)

namespace Unfolds

/-- A pending list has at most one traversal. -/
lemma unique {pending s t : List K} (hs : Unfolds child pending s) (ht : Unfolds child pending t) :
    s = t := by
  induction hs generalizing t with
  | nil =>
    cases ht
    rfl
  | cons _ ih =>
    cases ht with
    | cons ht => rw [ih ht]

/-- Traversals of two pending lists in turn. -/
lemma append {p q s t : List K} (hs : Unfolds child p s) (ht : Unfolds child q t) :
    Unfolds child (p ++ q) (s ++ t) := by
  induction hs with
  | nil => exact ht
  | cons _ ih =>
    rw [List.append_assoc] at ih
    exact .cons ih

/-- A traversal of a concatenation is a traversal of each part. -/
lemma of_append {p q r : List K} (h : Unfolds child (p ++ q) r) :
    ∃ s t, Unfolds child p s ∧ Unfolds child q t ∧ r = s ++ t := by
  generalize hzs : p ++ q = zs at h
  induction h generalizing p with
  | nil =>
    obtain ⟨rfl, rfl⟩ := List.append_eq_nil_iff.mp hzs
    exact ⟨[], [], .nil, .nil, rfl⟩
  | @cons k pending visited h ih =>
    cases p with
    | nil =>
      obtain rfl : q = k :: pending := hzs
      exact ⟨[], k :: visited, .nil, .cons h, rfl⟩
    | cons x p =>
      obtain ⟨rfl, rfl⟩ : x = k ∧ p ++ q = pending := by simpa using hzs
      obtain ⟨s, t, hs, ht, rfl⟩ := ih (p := child x ++ p) (List.append_assoc ..)
      exact ⟨x :: s, t, .cons hs, ht, rfl⟩

/-- Reordering the pending nodes permutes the visited ones. -/
lemma perm {xs ys s : List K} (h : Unfolds child xs s) (hp : xs.Perm ys) :
    ∃ t, Unfolds child ys t ∧ s.Perm t := by
  induction hp generalizing s with
  | nil => exact ⟨s, h, .refl s⟩
  | @cons k xs ys hp ih =>
    obtain ⟨s₁, s₂, h₁, h₂, rfl⟩ := of_append (p := [k]) h
    obtain ⟨t₂, ht₂, hst⟩ := ih h₂
    exact ⟨s₁ ++ t₂, append (p := [k]) h₁ ht₂, hst.append_left s₁⟩
  | swap k l xs =>
    obtain ⟨s₁, s', h₁, h', rfl⟩ := of_append (p := [l]) h
    obtain ⟨s₂, s₃, h₂, h₃, rfl⟩ := of_append (p := [k]) h'
    refine ⟨s₂ ++ (s₁ ++ s₃), append (p := [k]) h₂ (append (p := [l]) h₁ h₃), ?_⟩
    rw [← List.append_assoc, ← List.append_assoc]
    exact List.perm_append_comm.append_right s₃
  | trans _ _ ih₁ ih₂ =>
    obtain ⟨t₁, ht₁, h₁⟩ := ih₁ h
    obtain ⟨t₂, ht₂, h₂⟩ := ih₂ ht₁
    exact ⟨t₂, ht₂, h₁.trans h₂⟩

/-! ## Which nodes are visited -/

/-- Pending nodes whose descendants have ever smaller ranks have a traversal. -/
lemma exists_of_rank (rank : K → ℕ) (hrank : ∀ k, ∀ c ∈ child k, rank c < rank k)
    (pending : List K) : ∃ visited, Unfolds child pending visited := by
  have hlist : ∀ xs : List K, (∀ k ∈ xs, ∃ visited, Unfolds child [k] visited) →
      ∃ visited, Unfolds child xs visited := by
    intro xs hxs
    induction xs with
    | nil => exact ⟨[], .nil⟩
    | cons k xs ih =>
      obtain ⟨s, hs⟩ := hxs k (by simp)
      obtain ⟨t, ht⟩ := ih fun l hl => hxs l (by simp [hl])
      exact ⟨s ++ t, hs.append (p := [k]) ht⟩
  have hnode : ∀ n k, rank k < n → ∃ visited, Unfolds child [k] visited := by
    intro n
    induction n with
    | zero => exact fun k hk => absurd hk (Nat.not_lt_zero _)
    | succ n ih =>
      intro k hk
      obtain ⟨visited, h⟩ := hlist (child k) fun c hc => ih c (by have := hrank k c hc; omega)
      exact ⟨k :: visited, .cons (by rwa [List.append_nil])⟩
  exact hlist pending fun k _ => hnode _ k (Nat.lt_succ_self _)

/-- The visited nodes are the pending ones and their descendants. -/
lemma mem_iff {pending visited : List K} (h : Unfolds child pending visited) {x : K} :
    x ∈ visited ↔ ∃ r ∈ pending, Relation.ReflTransGen (fun a b => b ∈ child a) r x := by
  induction h with
  | nil => simp
  | @cons k pending visited _ ih =>
    rw [List.mem_cons, ih]
    constructor
    · rintro (rfl | ⟨r, hr, hrx⟩)
      · exact ⟨x, by simp, .refl⟩
      · rcases List.mem_append.mp hr with hr | hr
        · exact ⟨k, by simp, .head hr hrx⟩
        · exact ⟨r, by simp [hr], hrx⟩
    · rintro ⟨r, hr, hrx⟩
      rcases List.mem_cons.mp hr with rfl | hr
      · rcases hrx.cases_head with rfl | ⟨c, hc, hcx⟩
        · exact .inl rfl
        · exact .inr ⟨c, by simp [hc], hcx⟩
      · exact .inr ⟨r, by simp [hr], hrx⟩

/-- No node is visited twice when siblings differ, no node has two parents, the pending nodes have
no common descendant and ranks decrease. -/
lemma nodup {pending visited : List K} (h : Unfolds child pending visited) (rank : K → ℕ)
    (hrank : ∀ k, ∀ c ∈ child k, rank c < rank k) (hsiblings : ∀ k, (child k).Nodup)
    (hparent : ∀ a b c, c ∈ child a → c ∈ child b → a = b)
    (hapart : pending.Pairwise fun a b => ∀ x, Relation.ReflTransGen (fun a b => b ∈ child a) a x →
      ¬ Relation.ReflTransGen (fun a b => b ∈ child a) b x) : visited.Nodup := by
  have hle : ∀ {a b : K}, Relation.ReflTransGen (fun a b => b ∈ child a) a b → rank b ≤ rank a := by
    intro a b hab
    induction hab with
    | refl => exact le_rfl
    | tail _ hbc ih => exact (hrank _ _ hbc).le.trans ih
  -- Two ancestors of one node are comparable, because parents are unique.
  have hline : ∀ {a b x : K}, Relation.ReflTransGen (fun a b => b ∈ child a) a x →
      Relation.ReflTransGen (fun a b => b ∈ child a) b x →
      Relation.ReflTransGen (fun a b => b ∈ child a) a b ∨
        Relation.ReflTransGen (fun a b => b ∈ child a) b a := by
    intro a b x hax
    induction hax with
    | refl => exact .inr
    | @tail y z hay hyz ih =>
      intro hbz
      rcases hbz.cases_tail with rfl | ⟨y', hby', hy'z⟩
      · exact .inl (hay.tail hyz)
      · obtain rfl := hparent y y' z hyz hy'z
        exact ih hby'
  have hcousins : ∀ {k a b : K}, a ∈ child k → b ∈ child k →
      Relation.ReflTransGen (fun a b => b ∈ child a) a b → a = b := by
    intro k a b ha hb hab
    rcases hab.cases_tail with rfl | ⟨y, hay, hyb⟩
    · rfl
    · obtain rfl := hparent y k b hyb hb
      have := hrank y a ha
      have := hle hay
      omega
  induction h with
  | nil => exact List.nodup_nil
  | @cons k pending visited h ih =>
    obtain ⟨hk, hpending⟩ := List.pairwise_cons.mp hapart
    refine List.nodup_cons.mpr ⟨fun hmem => ?_, ih ?_⟩
    · obtain ⟨r, hr, hrk⟩ := h.mem_iff.mp hmem
      rcases List.mem_append.mp hr with hr | hr
      · have := hrank k r hr
        have := hle hrk
        omega
      · exact hk r hr k .refl hrk
    · refine List.pairwise_append.mpr ⟨?_, hpending, ?_⟩
      · refine (hsiblings k).imp_of_mem fun {a b} ha hb hne x hax hbx => ?_
        rcases hline hax hbx with hab | hba
        · exact hne (hcousins ha hb hab)
        · exact hne (hcousins hb ha hba).symm
      · exact fun c hc b hb x hcx hbx => hk b hb x (.head hc hcx) hbx

end Unfolds

/-! ## The unfolding -/

open Classical in
/-- The nodes a traversal visits, if there is one. -/
noncomputable def unfolding (child : K → List K) (pending : List K) : List K :=
  if h : ∃ visited, Unfolds child pending visited then h.choose else []

/-- There is only one unfolding. -/
lemma Unfolds.unfolding_eq {pending visited : List K} (h : Unfolds child pending visited) :
    unfolding child pending = visited := by
  have hex : ∃ visited, Unfolds child pending visited := ⟨visited, h⟩
  rw [unfolding, dif_pos hex]
  exact hex.choose_spec.unique h

section Total

variable (htotal : ∀ pending, ∃ visited, Unfolds child pending visited)

include htotal

/-- The unfolding visits what is to be visited. -/
lemma unfolds_unfolding (pending : List K) : Unfolds child pending (unfolding child pending) := by
  obtain ⟨visited, h⟩ := htotal pending
  rwa [h.unfolding_eq]

/-- Two lists are unfolded one after the other. -/
lemma unfolding_append (p q : List K) :
    unfolding child (p ++ q) = unfolding child p ++ unfolding child q :=
  ((unfolds_unfolding htotal p).append (unfolds_unfolding htotal q)).unfolding_eq

/-- A node is unfolded before its children. -/
lemma unfolding_singleton (k : K) : unfolding child [k] = k :: unfolding child (child k) := by
  refine Unfolds.unfolding_eq (.cons ?_)
  rw [List.append_nil]
  exact unfolds_unfolding htotal (child k)

end Total

/-! ## Scattered pending nodes -/

/-- The multiset `pending` of nodes unfolds to the multiset `visited`. -/
def MUnfolds (child : K → List K) (pending visited : Multiset K) : Prop :=
  ∃ xs s : List K, Unfolds child xs s ∧ (xs : Multiset K) = pending ∧ (s : Multiset K) = visited

namespace MUnfolds

/-- An unfolding of lists is one of multisets. -/
lemma of_unfolds {xs s : List K} (h : Unfolds child xs s) :
    MUnfolds child (xs : Multiset K) (s : Multiset K) := ⟨xs, s, h, rfl, rfl⟩

/-- Nothing pending unfolds to nothing. -/
lemma eq_zero {visited : Multiset K} (h : MUnfolds child 0 visited) : visited = 0 := by
  obtain ⟨xs, s, h, hxs, rfl⟩ := h
  obtain rfl : xs = [] := by simpa using hxs
  cases h
  rfl

/-- Visiting any one of the pending nodes replaces it by its children. -/
lemma visit {k : K} {pending visited : Multiset K} (h : MUnfolds child (k ::ₘ pending) visited) :
    ∃ later, MUnfolds child ((child k : Multiset K) + pending) later ∧ visited = k ::ₘ later := by
  obtain ⟨xs, s, h, hxs, rfl⟩ := h
  obtain ⟨ys, rfl⟩ := Quot.exists_rep pending
  have hp : xs.Perm (k :: ys) := Multiset.coe_eq_coe.mp hxs
  obtain ⟨t, ht, hst⟩ := h.perm hp
  cases ht with
  | @cons _ _ later ht =>
    exact ⟨(later : Multiset K), ⟨_, _, ht, (Multiset.coe_add ..).symm, rfl⟩,
      Multiset.coe_eq_coe.mpr hst⟩

/-- Fewer pending nodes unfold to no more nodes. -/
lemma exists_of_le {p pending visited : Multiset K} (h : MUnfolds child pending visited)
    (hle : p ≤ pending) : ∃ s, MUnfolds child p s ∧ s.card ≤ visited.card := by
  obtain ⟨xs, s, h, rfl, rfl⟩ := h
  obtain ⟨q, hq⟩ := Multiset.le_iff_exists_add.mp hle
  obtain ⟨ys, rfl⟩ := Quot.exists_rep p
  obtain ⟨zs, rfl⟩ := Quot.exists_rep q
  obtain ⟨t, ht, hst⟩ := h.perm (Multiset.coe_eq_coe.mp hq : xs.Perm (ys ++ zs))
  obtain ⟨t₁, t₂, ht₁, -, rfl⟩ := ht.of_append
  refine ⟨t₁, of_unfolds ht₁, ?_⟩
  rw [Multiset.coe_card, Multiset.coe_card, hst.length_eq, List.length_append]
  exact Nat.le_add_right ..

end MUnfolds
