import Scap.Config.Destinations
import Scap.Foundations.Moves
import Scap.Listing.Naming

/-!
# Cleaned paths

`clean_path` (`src/config.rs`) against what a path names.  In a file system without symlinks a path
is a list of moves in the tree of directories, and a path that is not absolute starts where the
process stands.  `filepathClean` is the rule ghq applies to its roots.

`clean_path` pops its buffer at every `..`, also when the buffer is empty: a path that at some point
goes up more often than down loses the steps above its start, and names another directory.
`keepsPlace_iff` says that these are the only paths it goes wrong on.
-/

namespace Scap

namespace Config

open Moves
open Listing (IsName relative)

/-! ## What a path names -/

/-- The move a piece of a path stands for; none for the empty one and for `.`. -/
def moveOf (piece : Bytes) : Option (Move Bytes) :=
  if piece = [] ∨ piece = dot then none
  else if piece = dotDot then some .up
  else some (.down piece)

/-- The moves a path stands for. -/
def pathMoves (path : PathBuf) : List (Move Bytes) := (path.splitOn slash).filterMap moveOf

/-- Whether a path starts at the root. -/
def isAbsolute (path : PathBuf) : Bool := path.head? = some slash

/-- A file system without symlinks: its directories, each as the names that lead there, the last one
first. -/
structure DirTree where
  dirs : Set (List Bytes)
  parent_mem : ∀ place ∈ dirs, place.tail ∈ dirs

/-- Where the resolution of a path starts. -/
def start (path : PathBuf) (cwd : List Bytes) : List Bytes := if isAbsolute path then [] else cwd

/-- From the working directory, the path leads to the place through directories only.  The empty
path leads nowhere. -/
structure Names (tree : DirTree) (cwd : List Bytes) (path : PathBuf) (place : List Bytes) :
    Prop where
  nonempty : path ≠ []
  stays : Stays tree.dirs (start path cwd) (pathMoves path)
  leads : follow (start path cwd) (pathMoves path) = place

/-- Whatever the path names, its cleaned form names. -/
def KeepsPlace (clean : PathBuf → PathBuf) (path : PathBuf) : Prop :=
  ∀ tree cwd place, Names tree cwd path place → Names tree cwd (clean path) place

/-- The path starts at the working directory, and at some point has gone up more often than down. -/
def ClimbsOut (path : PathBuf) : Prop := isAbsolute path = false ∧ Climbs (pathMoves path)

/-! ## The rule of `filepath.Clean` -/

/-- One piece on the elements before it, the last one first: `..` takes the element before it away,
is dropped at the root, and stays at the front of a path that is not absolute. -/
def cleanElement (absolute : Bool) (elements : List Bytes) (piece : Bytes) : List Bytes :=
  if piece = [] ∨ piece = dot then elements
  else if piece = dotDot then
    match elements with
    | [] => if absolute then [] else [dotDot]
    | element :: rest => if element = dotDot then dotDot :: elements else rest
  else piece :: elements

/-- The path of some elements, the last one first. -/
def joined (absolute : Bool) (elements : List Bytes) : PathBuf :=
  (if absolute then [slash] else []) ++ relative elements.reverse

/-- The shortest path that is the same text-wise, as ghq computes it for its roots. -/
def filepathClean (path : PathBuf) : PathBuf :=
  let out := joined (isAbsolute path)
    ((path.splitOn slash).foldl (cleanElement (isAbsolute path)) [])
  if out = [] then dot else out

/-! ## Pieces -/

section Pieces

variable {absolute : Bool} {elements : List Bytes} {name : Bytes}

/-- A name is a move down. -/
lemma moveOf_name (h : IsName name) : moveOf name = some (.down name) := by
  rw [moveOf, if_neg (not_or_intro h.nonempty h.ne_dot), if_neg h.ne_dotDot]

/-- A name a path goes down to is one. -/
lemma isName_of_moveOf {piece : Bytes} (hslash : slash ∉ piece)
    (h : moveOf piece = some (.down name)) : piece = name ∧ IsName name := by
  unfold moveOf at h
  split at h
  · cases h
  · rename_i hne
    split at h
    · cases h
    · rename_i hup
      cases h
      exact ⟨rfl, fun hnil => hne (.inl hnil), hslash, fun hdot => hne (.inr hdot), hup⟩

/-- What a path moves down to are names. -/
lemma isName_of_down_mem {path : PathBuf} (h : Move.down name ∈ pathMoves path) : IsName name := by
  obtain ⟨piece, hpiece, hmove⟩ := List.mem_filterMap.mp h
  exact (isName_of_moveOf (not_mem_of_mem_splitOn hpiece) hmove).2

/-- The source's component of a piece is its move. -/
lemma componentOf_cases (piece : Bytes) :
    componentOf piece = none ∧ moveOf piece = none ∨
      componentOf piece = some .parentDir ∧ moveOf piece = some .up ∨
      componentOf piece = some (.normal piece) ∧ moveOf piece = some (.down piece) := by
  unfold componentOf moveOf
  by_cases hskip : piece = [] ∨ piece = dot
  · exact .inl ⟨if_pos hskip, if_pos hskip⟩
  · by_cases hup : piece = dotDot
    · refine .inr (.inl ⟨?_, ?_⟩)
      · exact (if_neg hskip).trans (if_pos hup)
      · exact (if_neg hskip).trans (if_pos hup)
    · refine .inr (.inr ⟨?_, ?_⟩)
      · exact (if_neg hskip).trans (if_neg hup)
      · exact (if_neg hskip).trans (if_neg hup)

end Pieces

/-! ## Joined elements -/

section Joined

variable {absolute : Bool} {elements : List Bytes}

/-- Elements of a path: nonempty, and without a slash. -/
def AreElements (elements : List Bytes) : Prop := ∀ e ∈ elements, e ≠ [] ∧ slash ∉ e

/-- No elements are joined to the root, or to nothing. -/
lemma joined_nil (absolute : Bool) : joined absolute [] = if absolute then [slash] else [] := by
  rw [joined, List.reverse_nil, Listing.relative_nil, List.append_nil]

/-- One element is joined without a separator. -/
lemma joined_singleton (absolute : Bool) (last : Bytes) :
    joined absolute [last] = joined absolute [] ++ last := by
  rw [joined_nil, joined, List.reverse_singleton, relative, List.intercalate_singleton]

/-- An element is joined to those before it with a slash. -/
lemma joined_cons (absolute : Bool) (last : Bytes) (hne : elements ≠ []) :
    joined absolute (last :: elements) = joined absolute elements ++ slash :: last := by
  rw [joined, joined, List.reverse_cons,
    Listing.relative_append (List.reverse_ne_nil_iff.mpr hne) (List.cons_ne_nil _ _), relative,
    relative, List.intercalate_singleton, List.append_assoc]

/-- A joined path ends in its last element. -/
lemma getLast?_joined_cons (absolute : Bool) {last : Bytes} (hlast : last ≠ []) :
    (joined absolute (last :: elements)).getLast? = last.getLast? := by
  rcases eq_or_ne elements [] with rfl | hne
  · rw [joined_singleton, List.getLast?_append_of_ne_nil _ hlast]
  · rw [joined_cons absolute last hne, List.getLast?_append_of_ne_nil _ (List.cons_ne_nil _ _),
      List.getLast?_cons_of_ne_nil hlast]

/-- Pushing a name is joining one element more. -/
lemma pushBytes_joined (helements : AreElements elements) {name : Bytes} (hslash : slash ∉ name) :
    Config.pushBytes (joined absolute elements) name = joined absolute (name :: elements) := by
  have hhead : name.head? ≠ some slash := fun h => hslash (List.mem_of_mem_head? h)
  rw [Config.pushBytes, if_neg hhead]
  cases elements with
  | nil =>
    rw [joined_singleton, joined_nil]
    cases absolute <;> rfl
  | cons last elements =>
    obtain ⟨hlast, hlastSlash⟩ := helements last (List.mem_cons_self ..)
    have hend : (joined absolute (last :: elements)).getLast? = last.getLast? :=
      getLast?_joined_cons absolute hlast
    have hopen : ¬(joined absolute (last :: elements) = [] ∨
        (joined absolute (last :: elements)).getLast? = some slash) := by
      rw [hend]
      rintro (hnil | hfinal)
      · rw [hnil, List.getLast?_nil] at hend
        exact hlast (List.getLast?_eq_none_iff.mp hend.symm)
      · exact hlastSlash (List.mem_of_getLast? hfinal)
    rw [if_neg hopen, joined_cons absolute name (List.cons_ne_nil _ _)]

/-- Joined elements are what pushing them makes. -/
lemma tidy_joined (helements : AreElements elements) : Tidy (joined absolute elements) := by
  induction elements with
  | nil =>
    rw [joined_nil]
    cases absolute
    · exact .empty
    · exact .root
  | cons last elements ih =>
    obtain ⟨⟨hlast, hslash⟩, hrest⟩ := List.forall_mem_cons.mp helements
    rw [← pushBytes_joined hrest hslash]
    exact .push (ih hrest) hlast hslash

/-- Popping takes the last element away. -/
lemma popBytes_joined (helements : AreElements elements) :
    popBytes (joined absolute elements) = joined absolute elements.tail := by
  cases elements with
  | nil =>
    rw [List.tail_nil, joined_nil]
    cases absolute <;> rfl
  | cons last elements =>
    obtain ⟨⟨hlast, hslash⟩, hrest⟩ := List.forall_mem_cons.mp helements
    rw [← pushBytes_joined hrest hslash, (tidy_joined hrest).popBytes_push hlast hslash]
    rfl

/-- A joined path falls into its elements. -/
lemma splitOn_elements (helements : AreElements elements) (hne : elements ≠ []) :
    (relative elements.reverse).splitOn slash = elements.reverse :=
  List.splitOn_intercalate slash (fun e he => (helements e (List.mem_reverse.mp he)).2)
    (List.reverse_ne_nil_iff.mpr hne)

/-- The moves of a joined path are those of its elements. -/
lemma pathMoves_joined (helements : AreElements elements) :
    pathMoves (joined absolute elements) = elements.reverse.filterMap moveOf := by
  rcases eq_or_ne elements [] with rfl | hne
  · rw [joined_nil]
    cases absolute <;> decide
  · have hsplit := splitOn_elements helements hne
    cases absolute with
    | false => exact congrArg (List.filterMap moveOf) hsplit
    | true =>
      have hroot : (joined true elements).splitOn slash = [] :: elements.reverse := by
        rw [← hsplit]
        exact List.splitOn_append_cons_self_of_not_mem (List.not_mem_nil) _
      rw [pathMoves, hroot]
      rfl

/-- Joined elements are an absolute path if they are joined as one. -/
lemma isAbsolute_joined (helements : AreElements elements) :
    isAbsolute (joined absolute elements) = absolute := by
  cases absolute with
  | true => rfl
  | false =>
    refine decide_eq_false fun hhead => ?_
    obtain ⟨rest, hrest⟩ := List.head?_eq_some_iff.mp hhead
    have hne : elements ≠ [] := by
      rintro rfl
      cases hrest
    have hsplit := splitOn_elements helements hne
    have hcut : (joined false elements).splitOn slash = [] :: rest.splitOn slash := by
      rw [hrest]
      exact List.splitOn_append_cons_self_of_not_mem (List.not_mem_nil) _
    have hnil : [] ∈ elements.reverse := by
      rw [← hsplit]
      exact hcut ▸ List.mem_cons_self ..
    exact (helements [] (List.mem_reverse.mp hnil)).1 rfl

end Joined

/-! ## Rendered nets -/

section Rendered

variable {absolute : Bool} {net : Net Bytes} {path : PathBuf}

/-- The elements of a net: its names, and before them a `..` for every step up. -/
def elementsOf (net : Net Bytes) : List Bytes := net.downs ++ List.replicate net.ups dotDot

/-- The path of a net. -/
def rendered (absolute : Bool) (net : Net Bytes) : PathBuf :=
  if joined absolute (elementsOf net) = [] then dot else joined absolute (elementsOf net)

/-- The elements of a net are elements of a path. -/
lemma areElements_elementsOf (h : ∀ name ∈ net.downs, IsName name) :
    AreElements (elementsOf net) := by
  intro e he
  rcases List.mem_append.mp he with he | he
  · exact ⟨(h e he).nonempty, (h e he).noSlash⟩
  · rw [List.eq_of_mem_replicate he]
    decide

/-- The elements of a net move as the net does. -/
lemma filterMap_moveOf_elementsOf (h : ∀ name ∈ net.downs, IsName name) :
    (elementsOf net).reverse.filterMap moveOf = net.moves := by
  have hups : (List.replicate net.ups dotDot).filterMap moveOf = List.replicate net.ups .up :=
    List.filterMap_replicate_of_some (by decide)
  have hdowns : net.downs.reverse.filterMap moveOf = net.downs.reverse.map .down := by
    rw [← List.filterMap_eq_map]
    exact List.filterMap_congr fun name hname => moveOf_name (h name (List.mem_reverse.mp hname))
  rw [elementsOf, List.reverse_append, List.reverse_replicate, List.filterMap_append, hups, hdowns]
  rfl

/-- A net has a path that is not empty. -/
lemma rendered_ne_nil : rendered absolute net ≠ [] := by
  unfold rendered
  split
  · decide
  · assumption

/-- The path of a net moves as the net does. -/
lemma pathMoves_rendered (h : ∀ name ∈ net.downs, IsName name) :
    pathMoves (rendered absolute net) = net.moves := by
  have hmoves : pathMoves (joined absolute (elementsOf net)) = _ :=
    pathMoves_joined (areElements_elementsOf h)
  rw [filterMap_moveOf_elementsOf h] at hmoves
  unfold rendered
  split
  · rename_i hnil
    rw [hnil] at hmoves
    rw [← hmoves]
    decide
  · exact hmoves

/-- The path of a net is absolute if it is made as one. -/
lemma isAbsolute_rendered (h : ∀ name ∈ net.downs, IsName name) :
    isAbsolute (rendered absolute net) = absolute := by
  have habsolute : isAbsolute (joined absolute (elementsOf net)) = absolute :=
    isAbsolute_joined (areElements_elementsOf h)
  unfold rendered
  split
  · rename_i hnil
    rw [hnil] at habsolute
    rw [← habsolute]
    decide
  · exact habsolute

/-- A rendered net leads where the net leads. -/
lemma names_rendered (h : ∀ name ∈ net.downs, IsName name) {tree : DirTree}
    {cwd place : List Bytes} :
    Names tree cwd (rendered (isAbsolute path) net) place ↔
      Stays tree.dirs (start path cwd) net.moves ∧ net.from_ (start path cwd) = place := by
  have hstart : start (rendered (isAbsolute path) net) cwd = start path cwd := by
    rw [start, start, isAbsolute_rendered h]
  rw [← Net.follow_moves, ← pathMoves_rendered h, ← hstart]
  exact ⟨fun hnames => ⟨hnames.stays, hnames.leads⟩,
    fun ⟨hstays, hleads⟩ => ⟨rendered_ne_nil, hstays, hleads⟩⟩

end Rendered

/-! ## What the two compute -/

section Computed

variable {path : PathBuf}

/-- The net of the moves a path stands for. -/
def pathNet (path : PathBuf) : Net Bytes := net (pathMoves path)

/-- What the net of a path moves down to are names. -/
lemma isName_of_mem_downs {name : Bytes} (h : name ∈ (pathNet path).downs) : IsName name :=
  isName_of_down_mem (down_mem_of_mem_downs h)

/-- Some components of the loop of `clean_path`, on joined names. -/
lemma foldl_cleanStep {absolute : Bool} {pieces : List Bytes} (hpieces : ∀ p ∈ pieces, slash ∉ p)
    {elements : List Bytes} (helements : AreElements elements) :
    (pieces.filterMap componentOf).foldl cleanStep (joined absolute elements) =
      joined absolute (follow elements (pieces.filterMap moveOf)) := by
  induction pieces generalizing elements with
  | nil => rfl
  | cons piece pieces ih =>
    obtain ⟨hslash, hpieces⟩ := List.forall_mem_cons.mp hpieces
    obtain ⟨hcomponent, hmove⟩ | ⟨hcomponent, hmove⟩ | ⟨hcomponent, hmove⟩ :=
      componentOf_cases piece
    · rw [List.filterMap_cons_none hcomponent, List.filterMap_cons_none hmove]
      exact ih hpieces helements
    · rw [List.filterMap_cons_some hcomponent, List.filterMap_cons_some hmove, List.foldl_cons,
        cleanStep, popBytes_joined helements]
      exact ih hpieces fun e he => helements e (List.mem_of_mem_tail he)
    · have hname := (isName_of_moveOf hslash hmove).2
      rw [List.filterMap_cons_some hcomponent, List.filterMap_cons_some hmove, List.foldl_cons,
        cleanStep, pushBytes_joined helements hslash]
      exact ih hpieces (List.forall_mem_cons.mpr ⟨⟨hname.nonempty, hslash⟩, helements⟩)

/-- `clean_path` keeps the names of the net, and none of its steps up. -/
lemma cleanPath_eq (path : PathBuf) :
    cleanPath path = rendered (isAbsolute path) ⟨0, (pathNet path).downs⟩ := by
  have hloop : (components path).foldl cleanStep [] =
      joined (isAbsolute path) (follow [] (pathMoves path)) := by
    have hstart : (components path).foldl cleanStep [] =
        ((path.splitOn slash).filterMap componentOf).foldl cleanStep
          (joined (isAbsolute path) []) := by
      unfold components
      rw [List.foldl_append, joined_nil, isAbsolute]
      congr 1
      by_cases habsolute : path.head? = some slash
      · rw [if_pos habsolute, if_pos (decide_eq_true habsolute)]
        rfl
      · rw [if_neg habsolute, decide_eq_false habsolute, if_neg Bool.false_ne_true]
        split <;> rfl
    rw [hstart]
    exact foldl_cleanStep (fun p hp => not_mem_of_mem_splitOn hp) (by simp [AreElements])
  rw [follow_root] at hloop
  unfold cleanPath rendered elementsOf
  rw [hloop]
  simp only [List.replicate_zero, List.append_nil]
  rfl

/-- The elements of a net, without the steps up at the root. -/
def keptElements (absolute : Bool) (net : Net Bytes) : List Bytes :=
  net.downs ++ if absolute then [] else List.replicate net.ups dotDot

/-- One piece of `filepath.Clean` is one move of the net, or none. -/
lemma cleanElement_keptElements {absolute : Bool} {net : Net Bytes}
    (h : ∀ name ∈ net.downs, IsName name) (piece : Bytes) :
    cleanElement absolute (keptElements absolute net) piece =
      keptElements absolute ((moveOf piece).elim net net.step) := by
  obtain ⟨ups, downs⟩ := net
  unfold cleanElement moveOf
  by_cases hskip : piece = [] ∨ piece = dot
  · rw [if_pos hskip, if_pos hskip]
    rfl
  · rw [if_neg hskip, if_neg hskip]
    by_cases hup : piece = dotDot
    · rw [if_pos hup, if_pos hup]
      cases downs with
      | nil =>
        cases absolute with
        | true => rfl
        | false => cases ups <;> rfl
      | cons name downs => exact if_neg (h name (List.mem_cons_self ..)).ne_dotDot
    · rw [if_neg hup, if_neg hup]
      rfl

/-- The elements of `filepath.Clean` are those of the net. -/
lemma foldl_cleanElement {absolute : Bool} {pieces : List Bytes}
    (hpieces : ∀ p ∈ pieces, slash ∉ p) :
    pieces.foldl (cleanElement absolute) [] =
      keptElements absolute (net (pieces.filterMap moveOf)) := by
  induction pieces using List.reverseRecOn with
  | nil => cases absolute <;> rfl
  | append_singleton pieces piece ih =>
    have hearlier : ∀ p ∈ pieces, slash ∉ p := fun p hp =>
      hpieces p (List.mem_append_left _ hp)
    have hnames : ∀ name ∈ (net (pieces.filterMap moveOf)).downs, IsName name := by
      intro name hname
      obtain ⟨p, hp, hmove⟩ := List.mem_filterMap.mp (down_mem_of_mem_downs hname)
      exact (isName_of_moveOf (hearlier p hp) hmove).2
    rw [List.foldl_append, ih hearlier, List.foldl_cons, List.foldl_nil,
      cleanElement_keptElements hnames, List.filterMap_append]
    cases hmove : moveOf piece with
    | none => rw [List.filterMap_cons_none hmove, List.filterMap_nil, List.append_nil, Option.elim]
    | some move => rw [List.filterMap_cons_some hmove, List.filterMap_nil, net_concat, Option.elim]

/-- The net `filepath.Clean` keeps. -/
def keptNet (path : PathBuf) : Net Bytes :=
  if isAbsolute path then ⟨0, (pathNet path).downs⟩ else pathNet path

/-- `filepath.Clean` gives the path of the net it keeps. -/
lemma filepathClean_eq (path : PathBuf) :
    filepathClean path = rendered (isAbsolute path) (keptNet path) := by
  unfold filepathClean
  rw [foldl_cleanElement fun p hp => not_mem_of_mem_splitOn hp]
  unfold rendered keptNet
  cases isAbsolute path <;> rfl

/-- What the net that is kept moves down to are names. -/
lemma isName_of_mem_keptNet {name : Bytes} (h : name ∈ (keptNet path).downs) : IsName name := by
  unfold keptNet at h
  split at h <;> exact isName_of_mem_downs h

/-- The kept net leads where the path leads. -/
lemma keptNet_from (path : PathBuf) (cwd : List Bytes) :
    (keptNet path).from_ (start path cwd) = follow (start path cwd) (pathMoves path) := by
  rw [← net_from]
  unfold keptNet start
  split
  · rw [Net.from_, Net.from_, List.drop_nil, List.drop_nil]
    rfl
  · rfl

/-- The path climbs out of its start exactly when the kept net goes up. -/
lemma climbsOut_iff (path : PathBuf) : ClimbsOut path ↔ 0 < (keptNet path).ups := by
  unfold ClimbsOut keptNet
  rw [← net_ups_pos_iff]
  cases isAbsolute path <;> simp [pathNet]

end Computed

/-! ## Which paths are kept -/

/-- What `filepath.Clean` makes of a path names what the path names. -/
lemma keepsPlace_filepathClean (path : PathBuf) : KeepsPlace filepathClean path := by
  intro tree cwd place hnames
  rw [filepathClean_eq, names_rendered fun name => isName_of_mem_keptNet]
  have hfrom := keptNet_from path cwd
  exact ⟨hnames.stays.net tree.parent_mem hfrom, hfrom.trans hnames.leads⟩

/-- Without steps up to lose, the two agree. -/
lemma cleanPath_eq_filepathClean {path : PathBuf} (h : ¬ClimbsOut path) :
    cleanPath path = filepathClean path := by
  have hkept : keptNet path = ⟨0, (pathNet path).downs⟩ := by
    have hzero : (keptNet path).ups = 0 := Nat.eq_zero_of_not_pos (mt (climbsOut_iff path).mpr h)
    have hdowns : (keptNet path).downs = (pathNet path).downs := by
      unfold keptNet
      split <;> rfl
    rw [← hzero, ← hdowns]
  rw [cleanPath_eq, filepathClean_eq, hkept]

/-- A path that climbs out of its start names another directory once it is cleaned. -/
lemma not_keepsPlace {path : PathBuf} (h : ClimbsOut path) : ¬KeepsPlace cleanPath path := by
  obtain ⟨hrelative, hclimbs⟩ := h
  have hups : 0 < (pathNet path).ups := (net_ups_pos_iff _).mpr hclimbs
  -- one directory below the root is deep enough: cleaned, the path stays below it
  let tree : DirTree := ⟨Set.univ, fun _ _ => trivial⟩
  let cwd : List Bytes := [ascii ['w']]
  have hstart : start path cwd = cwd := by
    rw [start, hrelative]
    rfl
  intro hkeeps
  have hnames : Names tree cwd path (follow (start path cwd) (pathMoves path)) := by
    refine ⟨?_, fun _ _ => trivial, rfl⟩
    rintro rfl
    exact absurd hups (by decide)
  have hcleaned := hkeeps tree cwd _ hnames
  have hdowns : ∀ name ∈ (⟨0, (pathNet path).downs⟩ : Net Bytes).downs, IsName name :=
    fun name => isName_of_mem_downs
  rw [cleanPath_eq, names_rendered hdowns, hstart, ← net_from] at hcleaned
  have hlength := congrArg List.length hcleaned.2
  simp only [Net.from_, List.length_append, List.length_drop, pathNet] at hlength hups
  simp only [cwd, List.length_singleton] at hlength
  omega

/-- Names alone are cleaned to themselves. -/
lemma cleanPath_rendered {absolute : Bool} {names : List Bytes} (h : ∀ name ∈ names, IsName name) :
    cleanPath (rendered absolute ⟨0, names⟩) = rendered absolute ⟨0, names⟩ := by
  have hnet : pathNet (rendered absolute ⟨0, names⟩) = ⟨0, names⟩ := by
    rw [pathNet, pathMoves_rendered h, Net.moves, List.replicate_zero, List.nil_append,
      net_map_down, List.reverse_reverse]
  rw [cleanPath_eq, isAbsolute_rendered h, hnet]

/-- `clean_path` names the directory the path names, and is the rule of ghq, except for the paths
that climb out of the directory they start from.  Cleaning twice is cleaning once, for every
path. -/
theorem keepsPlace_iff (path : PathBuf) :
    (KeepsPlace cleanPath path ↔ ¬ClimbsOut path) ∧
      (cleanPath path = filepathClean path ↔ ¬ClimbsOut path) ∧
      cleanPath (cleanPath path) = cleanPath path := by
  refine ⟨⟨fun hkeeps hclimbs => not_keepsPlace hclimbs hkeeps, fun h => ?_⟩,
    ⟨fun heq hclimbs => not_keepsPlace hclimbs ?_, cleanPath_eq_filepathClean⟩, ?_⟩
  · intro tree cwd place hnames
    rw [cleanPath_eq_filepathClean h]
    exact keepsPlace_filepathClean path tree cwd place hnames
  · intro tree cwd place hnames
    rw [heq]
    exact keepsPlace_filepathClean path tree cwd place hnames
  · rw [cleanPath_eq path]
    exact cleanPath_rendered fun name => isName_of_mem_downs

/-- `../a` is cleaned to `a`. -/
theorem cleanPath_parent_loses :
    cleanPath (ascii "../a".toList) = ascii "a".toList ∧
      filepathClean (ascii "../a".toList) = ascii "../a".toList ∧
      ¬KeepsPlace cleanPath (ascii "../a".toList) := by
  refine ⟨by decide, by decide, not_keepsPlace ⟨by decide, [.up], ?_, by decide⟩⟩
  exact ⟨[.down (ascii ['a'])], by decide⟩

end Config

end Scap
