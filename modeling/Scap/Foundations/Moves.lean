import Mathlib.Data.List.Induction
import Mathlib.Data.Set.Basic
import Mathlib.Tactic.Common

/-!
# Moves in a tree

A place in a tree is the list of the names that lead there from the root, the last one first.  A
move goes up to the parent, where the root is its own, or down to a child.

Whatever the tree and the start, a list of moves comes to a number of steps up and then a number of
names down, its `net` (`net_from`), and a net visits only places above its two ends (`Stays.net`).
The net goes up exactly when the moves at some point have gone up more often than down
(`net_ups_pos_iff`).
-/

namespace Moves

variable {α : Type*}

/-- A step in a tree. -/
inductive Move (α : Type*) where
  | up
  | down (name : α)
deriving Repr, DecidableEq

namespace Move

/-- Whether the move goes up. -/
def isUp : Move α → Bool
  | up => true
  | down _ => false

/-- Whether the move goes down. -/
def isDown : Move α → Bool
  | up => false
  | down _ => true

end Move

/-- The place after one move. -/
def walk (place : List α) : Move α → List α
  | .up => place.tail
  | .down name => name :: place

/-- The place after some moves. -/
def follow (place : List α) (moves : List (Move α)) : List α := moves.foldl walk place

/-- No moves lead nowhere else. -/
@[simp] lemma follow_nil (place : List α) : follow place [] = place := rfl

/-- Two lists of moves are followed one after the other. -/
@[simp] lemma follow_append (place : List α) (xs ys : List (Move α)) :
    follow place (xs ++ ys) = follow (follow place xs) ys := List.foldl_append

/-- Moves up drop names. -/
lemma follow_replicate_up (place : List α) (k : ℕ) :
    follow place (List.replicate k .up) = place.drop k := by
  induction k generalizing place with
  | zero => rfl
  | succ k ih =>
    rw [List.replicate_succ, ← List.singleton_append, follow_append, ih, ← List.drop_tail]
    rfl

/-- Moves down add names. -/
lemma follow_map_down (place names : List α) :
    follow place (names.map .down) = names.reverse ++ place := by
  induction names generalizing place with
  | nil => rfl
  | cons name names ih =>
    rw [List.map_cons, ← List.singleton_append, follow_append, ih, List.reverse_cons,
      List.append_assoc]
    rfl

/-! ## What moves come to -/

/-- Some steps up, and names to go down from there, the last one first. -/
structure Net (α : Type*) where
  ups : ℕ
  downs : List α
deriving Repr, DecidableEq

namespace Net

/-- One move more. -/
def step (net : Net α) : Move α → Net α
  | .down name => ⟨net.ups, name :: net.downs⟩
  | .up =>
    match net.downs with
    | [] => ⟨net.ups + 1, []⟩
    | _ :: downs => ⟨net.ups, downs⟩

/-- Where the net leads. -/
def from_ (net : Net α) (place : List α) : List α := net.downs ++ place.drop net.ups

/-- The net as moves. -/
def moves (net : Net α) : List (Move α) :=
  List.replicate net.ups .up ++ net.downs.reverse.map .down

/-- A step of a net moves as the step does. -/
lemma step_from (net : Net α) (move : Move α) (place : List α) :
    (net.step move).from_ place = walk (net.from_ place) move := by
  obtain ⟨ups, downs⟩ := net
  cases move with
  | down name => rfl
  | up =>
    cases downs with
    | nil => exact List.tail_drop.symm
    | cons name downs => rfl

/-- The moves of a net lead where the net does. -/
lemma follow_moves (net : Net α) (place : List α) :
    follow place net.moves = net.from_ place := by
  rw [moves, follow_append, follow_replicate_up, follow_map_down, List.reverse_reverse]
  rfl

end Net

/-- What some moves come to. -/
def net (moves : List (Move α)) : Net α := moves.foldl Net.step ⟨0, []⟩

/-- The net of one more move is a step of the net. -/
lemma net_concat (moves : List (Move α)) (move : Move α) :
    net (moves ++ [move]) = (net moves).step move := by
  rw [net, List.foldl_append]
  rfl

/-- The net leads where the moves lead, from every place. -/
lemma net_from (moves : List (Move α)) (place : List α) :
    (net moves).from_ place = follow place moves := by
  induction moves using List.reverseRecOn with
  | nil => rfl
  | append_singleton moves move ih =>
    rw [net_concat, Net.step_from, ih, follow_append]
    rfl

/-- From the root, only the names of the net count. -/
lemma follow_root (moves : List (Move α)) : follow [] moves = (net moves).downs := by
  rw [← net_from, Net.from_, List.drop_nil, List.append_nil]

/-- Names that only lead down are their own net. -/
lemma net_map_down (names : List α) : net (names.map .down) = ⟨0, names.reverse⟩ := by
  induction names using List.reverseRecOn with
  | nil => rfl
  | append_singleton names name ih =>
    rw [List.map_append, List.map_singleton, net_concat, ih, List.reverse_concat]
    rfl

/-- The names of the net are names the moves go down to. -/
lemma down_mem_of_mem_downs {moves : List (Move α)} {name : α} (h : name ∈ (net moves).downs) :
    .down name ∈ moves := by
  induction moves using List.reverseRecOn with
  | nil => exact absurd h List.not_mem_nil
  | append_singleton moves move ih =>
    rw [net_concat] at h
    generalize net moves = reached at h ih
    obtain ⟨ups, downs⟩ := reached
    rw [List.mem_append, List.mem_singleton]
    cases move with
    | down other =>
      rcases List.mem_cons.mp h with rfl | h
      · exact .inr rfl
      · exact .inl (ih h)
    | up =>
      cases downs with
      | nil => exact absurd h List.not_mem_nil
      | cons top downs => exact .inl (ih (List.mem_cons_of_mem _ h))

/-! ## Going up -/

/-- A step up is cancelled by a name before it, or counts. -/
lemma count_net (moves : List (Move α)) :
    moves.countP Move.isDown + (net moves).ups =
      moves.countP Move.isUp + (net moves).downs.length := by
  induction moves using List.reverseRecOn with
  | nil => rfl
  | append_singleton moves move ih =>
    rw [net_concat]
    generalize net moves = reached at ih ⊢
    obtain ⟨ups, downs⟩ := reached
    cases move with
    | down name =>
      simp [Net.step, Move.isDown, Move.isUp] at ih ⊢
      omega
    | up => cases downs <;> simp [Net.step, Move.isDown, Move.isUp] at ih ⊢ <;> omega

/-- The steps up of a net only get more. -/
lemma Net.ups_le_ups_step (net : Net α) (move : Move α) : net.ups ≤ (net.step move).ups := by
  obtain ⟨ups, downs⟩ := net
  cases move with
  | down name => exact Nat.le_refl _
  | up =>
    cases downs with
    | nil => exact Nat.le_succ _
    | cons name downs => exact Nat.le_refl _

/-- After the first step up that counts there is no name. -/
lemma Net.downs_step_eq_nil {net : Net α} {move : Move α} (hzero : net.ups = 0)
    (hpos : 0 < (net.step move).ups) : (net.step move).downs = [] := by
  obtain ⟨ups, downs⟩ := net
  subst hzero
  cases move with
  | down name => exact absurd hpos (Nat.lt_irrefl 0)
  | up =>
    cases downs with
    | nil => rfl
    | cons name downs => exact absurd hpos (Nat.lt_irrefl 0)

/-- At some point the moves have gone up more often than down. -/
def Climbs (moves : List (Move α)) : Prop :=
  ∃ earlier, earlier <+: moves ∧ earlier.countP Move.isDown < earlier.countP Move.isUp

/-- The net goes up exactly when the moves climb. -/
lemma net_ups_pos_iff (moves : List (Move α)) : 0 < (net moves).ups ↔ Climbs moves := by
  constructor
  · intro h
    induction moves using List.reverseRecOn with
    | nil => exact absurd h (Nat.lt_irrefl 0)
    | append_singleton moves move ih =>
      rcases Nat.eq_zero_or_pos (net moves).ups with hzero | hpos
      · -- the step up that counts is this one
        refine ⟨_, List.prefix_rfl, ?_⟩
        have hcount := count_net (moves ++ [move])
        rw [net_concat] at h hcount
        rw [Net.downs_step_eq_nil hzero h, List.length_nil] at hcount
        omega
      · obtain ⟨earlier, hearlier, hcount⟩ := ih hpos
        exact ⟨earlier, hearlier.trans (List.prefix_append ..), hcount⟩
  · rintro ⟨earlier, ⟨later, rfl⟩, hcount⟩
    induction later using List.reverseRecOn with
    | nil =>
      have hnet := count_net earlier
      rw [List.append_nil]
      omega
    | append_singleton later move ih =>
      rw [← List.append_assoc, net_concat]
      exact ih.trans_le (Net.ups_le_ups_step _ _)

/-! ## The places on the way -/

/-- Every place on the way is in the set. -/
def Stays (places : Set (List α)) (place : List α) (moves : List (Move α)) : Prop :=
  ∀ earlier, earlier <+: moves → follow place earlier ∈ places

/-- Where places have their parents among them, they have all places above them. -/
lemma mem_of_suffix {places : Set (List α)} (htail : ∀ place ∈ places, place.tail ∈ places)
    {above place : List α} (h : above <:+ place) (hmem : place ∈ places) : above ∈ places := by
  obtain ⟨below, rfl⟩ := h
  induction below with
  | nil => exact hmem
  | cons name below ih => exact ih (htail _ hmem)

/-- The net visits places above the start, and places above the end. -/
lemma suffix_of_prefix_moves (net : Net α) (place : List α) {earlier : List (Move α)}
    (h : earlier <+: net.moves) :
    follow place earlier <:+ place ∨ follow place earlier <:+ net.from_ place := by
  rcases List.prefix_or_prefix_of_prefix h (List.prefix_append ..) with h | ⟨rest, rfl⟩
  · left
    obtain ⟨-, hups⟩ := List.prefix_replicate_iff.mp h
    rw [hups, follow_replicate_up]
    exact List.drop_suffix ..
  · right
    have hrest := (List.prefix_append_right_inj _).mp h
    obtain ⟨names, ⟨others, hnames⟩, rfl⟩ := List.prefix_map_iff.mp hrest
    have hdowns : net.downs = others.reverse ++ names.reverse := by
      rw [← List.reverse_append, hnames, List.reverse_reverse]
    rw [follow_append, follow_replicate_up, follow_map_down, Net.from_, hdowns, List.append_assoc]
    exact List.suffix_append ..

/-- Where the moves can be followed, so can any net that leads to the same place. -/
lemma Stays.net {places : Set (List α)} (htail : ∀ place ∈ places, place.tail ∈ places)
    {place : List α} {moves : List (Move α)} (h : Stays places place moves) {net : Net α}
    (hnet : net.from_ place = follow place moves) : Stays places place net.moves := by
  intro earlier hearlier
  rcases suffix_of_prefix_moves net place hearlier with habove | habove
  · exact mem_of_suffix htail habove (h [] List.nil_prefix)
  · rw [hnet] at habove
    exact mem_of_suffix htail habove (h moves List.prefix_rfl)

end Moves
