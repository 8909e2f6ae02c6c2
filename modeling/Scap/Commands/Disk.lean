import Scap.Walk.Rules

/-!
# Changing a directory tree

What `create_dir_all`, `remove_dir_all`, `rename` and programs that work inside one directory do to
the trees a walk reads.  All of it is one operation, the replacement of the object at one path
(`Node.alter`): the directories on the way get new times and are made where they are missing, and
nothing else changes (`Tree.SameBut`).
-/

namespace Scap

namespace Node

/-! ## Replacing an object -/

/-- What a change leaves to the file system, by the path still to go: the attributes of a directory
that is made and of one on the way, and whether the type of a new entry is reported. -/
structure Stamp where
  fresh : List Bytes → Attr
  touch : List Bytes → Attr → Attr
  typed : Bool

/-- The entries with this object under a name, or without the name. -/
def setEntry (typed : Bool) (name : Bytes) (o : Option Node) :
    List (Bytes × Bool × Node) → List (Bytes × Bool × Node)
  | [] => (o.map fun n => (name, typed, n)).toList
  | e :: entries =>
    if e.1 = name then
      (o.map fun n => (name, e.2.1, n)).toList ++ entries.filter fun e => e.1 ≠ name
    else e :: setEntry typed name o entries

/-- The object with that at a path replaced.  Missing directories on the way are made if there is to
be an object; from anything but a directory the way does not go on. -/
def alter (stamp : Stamp) (new : Option Node) : List Bytes → Option Node → Option Node
  | [], _ => new
  | name :: p, none => (alter stamp new p none).map fun n =>
    dir (stamp.fresh (name :: p)) true true [(name, stamp.typed, n)]
  | name :: p, some (dir attr r x entries) =>
    some (dir (stamp.touch (name :: p) attr) r x
      (setEntry stamp.typed name (alter stamp new p (lookup entries name)) entries))
  | _ :: _, some n => some n

/-- The object at a path below an object, if there is one. -/
def under (o : Option Node) (q : List Bytes) : Option Node := o.bind (at? q)

/-- Below an object, at the empty path, is the object. -/
@[simp] lemma under_nil (o : Option Node) : under o [] = o := by
  cases o <;> simp [under]

/-- Below nothing is nothing. -/
@[simp] lemma under_none (q : List Bytes) : under none q = none := rfl

/-- What is below at a path and then another is below at both together. -/
lemma under_append (o : Option Node) (p q : List Bytes) :
    under o (p ++ q) = under (under o p) q := by
  cases o with
  | none => rfl
  | some n => exact at?_append n p q

/-- Below a directory a name is looked up. -/
@[simp] lemma under_cons_dir (attr : Attr) (r x : Bool) (entries : List (Bytes × Bool × Node))
    (name : Bytes) (q : List Bytes) :
    under (some (dir attr r x entries)) (name :: q) = under (lookup entries name) q := rfl

/-- An empty directory has no entry. -/
@[simp] lemma lookup_nil (name : Bytes) : lookup [] name = none := rfl

/-- The first entry of a name is looked up. -/
lemma lookup_cons (e : Bytes × Bool × Node) (entries : List (Bytes × Bool × Node)) (name : Bytes) :
    lookup (e :: entries) name = if e.1 = name then some e.2.2 else lookup entries name := by
  unfold lookup
  rw [List.find?_cons]
  by_cases h : e.1 = name <;> simp [h]

/-- Where a name is removed, the others are looked up as before. -/
lemma lookup_filter (entries : List (Bytes × Bool × Node)) (name name' : Bytes) :
    lookup (entries.filter fun e => e.1 ≠ name) name' =
      if name' = name then none else lookup entries name' := by
  induction entries with
  | nil => simp
  | cons e entries ih =>
    by_cases he : e.1 = name
    · rw [List.filter_cons_of_neg (by simpa using he), ih, lookup_cons, he]
      split_ifs <;> simp_all
    · rw [List.filter_cons_of_pos (by simpa using he), lookup_cons, lookup_cons, ih]
      split_ifs <;> simp_all

/-- What is found under a name once an entry is set. -/
lemma lookup_setEntry (typed : Bool) (name name' : Bytes) (o : Option Node)
    (entries : List (Bytes × Bool × Node)) :
    lookup (setEntry typed name o entries) name' =
      if name' = name then o else lookup entries name' := by
  have hcons : ∀ (flag : Bool) (rest : List (Bytes × Bool × Node)),
      lookup ((o.map fun n => (name, flag, n)).toList ++ rest) name' =
        if name' = name then o.or (lookup rest name') else lookup rest name' := by
    intro flag rest
    cases o with
    | none => simp
    | some n =>
      rw [Option.map_some, Option.toList_some, List.singleton_append, lookup_cons]
      simp only [eq_comm (a := name), Option.some_or]
  induction entries with
  | nil =>
    rw [setEntry, ← List.append_nil (Option.toList _), hcons]
    cases o <;> simp
  | cons e entries ih =>
    unfold setEntry
    by_cases he : e.1 = name
    · rw [if_pos he, hcons, lookup_filter, lookup_cons, he]
      split_ifs <;> simp_all
    · rw [if_neg he, lookup_cons, lookup_cons, ih]
      split_ifs <;> simp_all

/-! ## What is replaced and what is not -/

variable (stamp : Stamp) (new : Option Node) {o : Option Node} {p q : List Bytes}

/-- Off the path nothing changes. -/
lemma under_alter_off (hq : ¬q <+: p) (hp : ¬p <+: q) :
    under (alter stamp new p o) q = under o q := by
  induction p generalizing q o with
  | nil => exact absurd List.nil_prefix hp
  | cons name p ih =>
    obtain ⟨name', q, rfl⟩ := List.exists_cons_of_ne_nil
      (fun h : q = [] => hq (h ▸ List.nil_prefix))
    rw [List.cons_prefix_cons] at hq hp
    match o with
    | none =>
      unfold alter
      cases halter : alter stamp new p none with
      | none => rfl
      | some n =>
        rw [Option.map_some, under_cons_dir, lookup_cons, lookup_nil]
        split_ifs with hname
        · obtain rfl : name = name' := hname
          rw [← halter, ih (fun h => hq ⟨rfl, h⟩) fun h => hp ⟨rfl, h⟩]
          rfl
        · rfl
    | some (dir attr r x entries) =>
      rw [alter, under_cons_dir, under_cons_dir, lookup_setEntry]
      split_ifs with hname
      · obtain rfl : name' = name := hname
        exact ih (fun h => hq ⟨rfl, h⟩) fun h => hp ⟨rfl, h⟩
      · rfl
    | some (file ..) | some (link ..) => simp [alter]

/-- Every object on the way to the path is a directory. -/
def Clear (o : Option Node) (p : List Bytes) : Prop :=
  ∀ q n, q <+: p → q ≠ p → under o q = some n → n.fileType = .directory

/-- At the path and below it there is what was put there. -/
lemma under_alter (h : Clear o p) (s : List Bytes) :
    under (alter stamp new p o) (p ++ s) = under new s := by
  induction p generalizing o with
  | nil => rw [alter, List.nil_append]
  | cons name p ih =>
    match o with
    | none =>
      have hbelow := ih (o := none) fun q n _ _ hq => by simp at hq
      rw [alter, ← hbelow]
      cases alter stamp new p none with
      | none => rfl
      | some n => simp [lookup_cons]
    | some (dir attr r x entries) =>
      rw [alter, List.cons_append, under_cons_dir, lookup_setEntry, if_pos rfl]
      refine ih fun q n hq hne hn => h (name :: q) n (List.cons_prefix_cons.mpr ⟨rfl, hq⟩) ?_ hn
      exact fun heq => hne (List.cons.inj heq).2
    | some (file attr fileType plain) =>
      exact absurd (h [] _ List.nil_prefix (by simp) rfl) plain.1
    | some (link attr resolve) =>
      exact absurd (h [] _ List.nil_prefix (by simp) (under_nil _)) (by simp [fileType])

/-- A directory on the way stays a directory with the same permissions. -/
lemma under_alter_way {attr : Attr} {r x : Bool} {entries : List (Bytes × Bool × Node)}
    (hq : q <+: p) (hne : q ≠ p) (h : under o q = some (dir attr r x entries)) :
    ∃ attr' entries', under (alter stamp new p o) q = some (dir attr' r x entries') := by
  induction p generalizing q o with
  | nil => exact absurd (List.prefix_nil.mp hq) hne
  | cons name p ih =>
    cases q with
    | nil =>
      rw [under_nil] at h
      subst h
      exact ⟨_, _, by rw [alter, under_nil]⟩
    | cons name' q =>
      obtain ⟨rfl, hrest⟩ := List.cons_prefix_cons.mp hq
      match o with
      | none => simp at h
      | some (dir attr' r' x' entries') =>
        rw [under_cons_dir] at h
        rw [alter, under_cons_dir, lookup_setEntry, if_pos rfl]
        exact ih hrest (fun heq => hne (heq ▸ rfl)) h
      | some (file ..) | some (link ..) => simp [under, at?] at h

/-- Above an object there are directories. -/
lemma exists_dir_of_under {n : Node} (h : under o p = some n) (hq : q <+: p) (hne : q ≠ p) :
    ∃ attr r x entries, under o q = some (dir attr r x entries) := by
  obtain ⟨s, rfl⟩ := hq
  rw [under_append] at h
  obtain ⟨name, s, rfl⟩ := List.exists_cons_of_ne_nil (fun hs : s = [] => hne (by simp [hs]))
  cases hm : under o q with
  | none => simp [hm] at h
  | some m =>
    cases m with
    | dir attr r x entries => exact ⟨attr, r, x, entries, rfl⟩
    | file | link =>
      rw [hm] at h
      simp [under, at?] at h

end Node

/-! ## Trees -/

namespace Tree

/-- The object at a path is replaced by another, or by nothing.  Nothing changes if it was that
already. -/
def Puts (t t' : Tree) (p : List Bytes) (new : Option Node) : Prop :=
  t' = t ∧ t.root.at? p = new ∨
    Node.Clear (some t.root) p ∧ (t.root.at? p = none → new ≠ none) ∧
      ∃ stamp, Node.alter stamp new p (some t.root) = some t'.root

/-- Off a path the trees are the same, and on the way to it there are directories or, in the end,
nothing. -/
structure SameBut (t t' : Tree) (p : List Bytes) : Prop where
  off : ∀ q, ¬q <+: p → ¬p <+: q → t'.root.at? q = t.root.at? q
  before : ∀ q, q <+: p → q ≠ p → t.IsDir q ∨ t.root.at? q = none
  after : ∀ q, q <+: p → q ≠ p → t'.IsDir q ∨ t'.root.at? q = none ∧ t.root.at? q = none

variable {t t' : Tree} {p q : List Bytes} {new : Option Node}

/-- Above an object there are directories. -/
lemma isDir_of_at? {n : Node} (h : t.root.at? p = some n) (hq : q <+: p) (hne : q ≠ p) :
    t.IsDir q :=
  @Node.exists_dir_of_under (some t.root) p q n h hq hne

/-- Nothing is below nothing. -/
lemma at?_eq_none_of_prefix (h : t.root.at? q = none) (hq : q <+: p) : t.root.at? p = none := by
  obtain ⟨s, rfl⟩ := hq
  rw [Node.at?_append, h, Option.bind_none]

/-- On a clear way to a path there are directories or nothing. -/
lemma isDir_or_none_of_clear (h : Node.Clear (some t.root) p) (hq : q <+: p) (hne : q ≠ p) :
    t.IsDir q ∨ t.root.at? q = none := by
  cases hn : t.root.at? q with
  | none => exact .inr rfl
  | some n =>
    have htype := h q n hq hne hn
    cases n with
    | dir attr r x entries => exact .inl ⟨attr, r, x, entries, hn⟩
    | file attr fileType plain => exact absurd htype plain.1
    | link attr resolve => exact absurd htype (by simp [Node.fileType])

/-- The way to an object is clear. -/
lemma clear_of_at? {n : Node} (h : t.root.at? p = some n) : Node.Clear (some t.root) p := by
  intro q m hq hne hm
  obtain ⟨attr, r, x, entries, hdir⟩ := isDir_of_at? h hq hne
  obtain rfl := Option.some.inj (hdir.symm.trans hm)
  rfl

/-- What was put at a path is there. -/
lemma Puts.at?_append (h : t.Puts t' p new) (s : List Bytes) :
    t'.root.at? (p ++ s) = Node.under new s := by
  rcases h with ⟨rfl, rfl⟩ | ⟨hclear, -, stamp, halter⟩
  · exact Node.at?_append ..
  · have hunder := Node.under_alter stamp new hclear s
    rw [halter] at hunder
    exact hunder

/-- What is put at a path is there. -/
lemma Puts.at?_self (h : t.Puts t' p new) : t'.root.at? p = new := by
  have hat := h.at?_append []
  rwa [List.append_nil, Node.under_nil] at hat

/-- Replacing an object, or putting one where there was none, changes nothing else. -/
lemma Puts.sameBut (h : t.Puts t' p new) : t' = t ∨ t.SameBut t' p := by
  refine h.imp And.left ?_
  rintro ⟨hclear, hsome, stamp, halter⟩
  refine ⟨fun q hq hp => ?_, fun q hq hne => isDir_or_none_of_clear hclear hq hne,
    fun q hq hne => .inl ?_⟩
  · have hoff := @Node.under_alter_off stamp new (some t.root) p q hq hp
    rw [halter] at hoff
    exact hoff
  · have hat := h.at?_self
    cases hnew : new with
    | some n => exact isDir_of_at? (hat.trans hnew) hq hne
    | none =>
      obtain ⟨n, hn⟩ := Option.ne_none_iff_exists'.mp fun hnone => hsome hnone hnew
      obtain ⟨attr, r, x, entries, hdir⟩ := isDir_of_at? hn hq hne
      obtain ⟨attr', entries', hdir'⟩ :=
        @Node.under_alter_way stamp new (some t.root) p q _ _ _ _ hq hne hdir
      rw [halter] at hdir'
      exact ⟨attr', r, x, entries', hdir'⟩

/-- A directory that is made is seen as a directory on the way to whatever would lie below it. -/
lemma Puts.sameBut_below {attr : Attr} (h : t.Puts t' q (some (Node.emptyDir attr)))
    (hnone : t.root.at? q = none) (hq : q <+: p) : t.SameBut t' p := by
  have hsame : t.SameBut t' q := h.sameBut.resolve_left fun heq => by
    rw [← heq, h.at?_self] at hnone
    cases hnone
  have hdir : t'.IsDir q := ⟨_, _, _, _, h.at?_self⟩
  have hbefore : ∀ a, q <+: a → t.root.at? a = none := fun a ha => at?_eq_none_of_prefix hnone ha
  have hafter : ∀ a, q <+: a → a ≠ q → t'.root.at? a = none := by
    rintro _ ⟨s, rfl⟩ hs
    obtain ⟨name, s, rfl⟩ := List.exists_cons_of_ne_nil (fun h : s = [] => hs (by simp [h]))
    rw [h.at?_append]
    rfl
  refine ⟨fun a ha hpa => ?_, fun a ha hne => ?_, fun a ha hne => ?_⟩
  · by_cases hqa : q <+: a
    · rw [hbefore a hqa, hafter a hqa fun heq => ha (heq ▸ hq)]
    · exact hsame.off a (fun haq => ha (haq.trans hq)) hqa
  · by_cases hqa : q <+: a
    · exact .inr (hbefore a hqa)
    · have haq : a <+: q := (List.prefix_or_prefix_of_prefix ha hq).resolve_right hqa
      exact hsame.before a haq fun heq => hqa (heq ▸ List.prefix_refl _)
  · by_cases hqa : q <+: a
    · rcases eq_or_ne a q with rfl | hne'
      · exact .inl hdir
      · exact .inr ⟨hafter a hqa hne', hbefore a hqa⟩
    · have haq : a <+: q := (List.prefix_or_prefix_of_prefix ha hq).resolve_right hqa
      exact hsame.after a haq fun heq => hqa (heq ▸ List.prefix_refl _)

end Tree

end Scap
